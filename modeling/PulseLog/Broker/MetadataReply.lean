/-
  Subject:   The METADATA response for all topics, behind any requests that create topics
             (`ClusterMetadata::BuildMetadataResponse`, `MetadataResponse::Decode`).

  A topic may have as many partitions as an `int32_t` counts: a CREATE_TOPIC asks for them, or a
  PRODUCE to a partition of a topic that is not there. The decoders take arrays of 2^20 elements.

  * **`metadata_decodable`** -- after requests that keep the limits the response is read back;
    `huge_topic_undecodable` -- one request is enough to make it unreadable.
-/
import PulseLog.Broker.CreateTopic
import PulseLog.Broker.Replicate
import PulseLog.Metadata.Membership
import PulseLog.Protocol.RoundTrip

namespace PulseLog

open ClusterMetadata PulseLog.Parser List
open Protocol (BrokerEndpoint MetadataResponse Few Short maxArrayElements)
open PulseLog.Membership (brokerIds)

namespace Directory

/-! ## 1. The response -/

/-- A topic as it is sent. -/
def wireTopic (t : TopicMetadata) : Protocol.TopicMetadata :=
  ⟨text t.name, t.partitions.map fun p =>
    ⟨Int32.ofNat p.index, Int32.ofNat p.leader, Int64.ofNat p.leaderEpoch,
      p.replicas.map Int32.ofNat, p.inSyncReplicas.map Int32.ofNat⟩⟩

/-- The METADATA response for all topics of broker `c`. -/
def metadataResponse (brokers : List BrokerEndpoint) (s : Directory) (c : Nat) : MetadataResponse :=
  ⟨⟨none, []⟩, (brokers.head?.map BrokerEndpoint.id).getD (-1), brokers,
    ((s.metadata c).buildMetadataResponse []).map wireTopic⟩

/-- The requests that create topics. -/
inductive TopicRequest where
  | create (req : CreateTopicRequest) (opened : Option Status)
  | produce (topic : String) (partition : Int) (opened : Option Status)

variable (config : Nat → TopicDefaults) (c : Nat)

/-- Broker `c` handles a request. -/
def serve (s : Directory) : TopicRequest → Directory
  | .create req opened => (s.executeCreateTopic config c req opened).1
  | .produce topic partition opened => s.resolvePartition config c topic partition opened

/-- The number of partitions a request asks for. -/
def TopicRequest.partitions : TopicRequest → Int
  | .create req _ => (wanted config c req).partitionCount
  | .produce _ partition _ =>
    max (config c).defaultPartitions (Int.bmod (partition + 1) (2 ^ 32))

/-- The request asks for no more partitions, and finds fewer topics, than a decoder takes. -/
def Modest (s : Directory) (request : TopicRequest) : Prop :=
  request.partitions config c ≤ maxArrayElements ∧ (s.topics c).length < maxArrayElements

/-! ## 2. Within the limits -/

section Limits

variable {config c} {brokers : List BrokerEndpoint} {s : Directory} {d : TopicDescriptor}

/-- The topics of broker `c` are placed and keep the limits. -/
structure Within (ids : List Nat) (c : Nat) (s : Directory) : Prop where
  brokers : s.brokers = ids
  topics : ∀ d ∈ s.topics c, Placed ids d ∧ d.config.partitionCount ≤ maxArrayElements
  few : Few (s.topics c)

theorem Within.ensure {ids : List Nat} (h : Within ids c s) {topic : String} {n r : Int}
    {here : Bool} {opened : Option Status} (hn : n ≤ maxArrayElements)
    (hlen : (s.topics c).length < maxArrayElements) :
    Within ids c (s.ensure c topic n r here opened).1 := by
  have hens := ensures_ensure s c topic n r here opened
  generalize (s.ensure c topic n r here opened).1 = s' at hens
  cases hens with
  | same => exact h
  | forwarded req _ _ => exact ⟨h.brokers, h.topics, h.few⟩
  | created d hconfig hplaced _ _ =>
    have htopics : ((s.setTopics c (putKey TopicDescriptor.name (s.topics c) d)).send
        (s.broadcast c (if here = false ∧ opened = none ∧ 1 < s.brokers.length then some d
          else none))).topics c = putKey TopicDescriptor.name (s.topics c) d :=
      setTopics_topics_same s c _
    refine ⟨h.brokers, fun d' hd' => ?_, ?_⟩
    · rw [htopics] at hd'
      rcases mem_putKey.mp hd' with rfl | ⟨hold, -⟩
      · rw [← h.brokers]
        exact ⟨hplaced, by rw [hconfig]; exact hn⟩
      · exact h.topics d' hold
    · rw [htopics]
      exact le_trans (length_putKey_le _ _) hlen

theorem within_serve (ids : List Nat) (s : Directory) (request : TopicRequest) (h : Within ids c s)
    (hm : Modest config c s request) : Within ids c (serve config c s request) := by
  cases request with
  | create req opened => exact h.ensure hm.1 hm.2
  | produce topic partition opened =>
    simp only [serve, resolvePartition]
    split
    · exact h
    · exact h.ensure hm.1 hm.2

theorem short_name (h : isValidTopicName d.config.name = true) : Short (text d.config.name) := by
  have hlen : d.config.name.utf8ByteSize ≤ 200 := by
    simp only [isValidTopicName, Bool.and_eq_true, decide_eq_true_iff] at h
    exact h.1.1.1.2
  show (text d.config.name).length ≤ 65535
  have hsize : (text d.config.name).length = d.config.name.utf8ByteSize := rfl
  omega

theorem few_replicas {ids : List Nat} (hd : Placed ids d) {p : PartitionPlacement}
    (hp : p ∈ d.partitions) :
    p.replicas.length ≤ maxArrayElements ∧ p.inSyncReplicas.length ≤ maxArrayElements := by
  have hne : ids.length ≠ 0 := fun h => hd.nonempty (length_eq_zero_iff.mp h)
  have hbound := Int.bmod_lt (x := ids.length) (m := 2 ^ 16) (by decide)
  have hfits := hd.fits
  rw [hd.partitions, computeAssignments, if_neg hne] at hp
  obtain ⟨i, -, rfl⟩ := mem_map.mp hp
  simp only [placement, length_map, length_range, maxArrayElements]
  omega

/-- **Topics within the limits** make a well-formed response. -/
theorem wellFormed_response (hfew : Few brokers) (hhosts : ∀ b ∈ brokers, Short b.host)
    {ids : List Nat} (h : Within ids c s) : (metadataResponse brokers s c).WellFormed := by
  have htopics : (s.metadata c).buildMetadataResponse [] = (s.topics c).map describe := rfl
  refine ⟨Nat.zero_le _, hfew, hhosts, ?_, fun t ht => ?_⟩
  · show List.length (List.map _ _) ≤ _
    rw [htopics, length_map, length_map]
    exact h.few
  · simp only [metadataResponse, htopics, map_map, mem_map] at ht
    obtain ⟨d, hd, rfl⟩ := ht
    obtain ⟨hplaced, hcount⟩ := h.topics d hd
    refine ⟨short_name hplaced.name, ?_, fun p hp => ?_⟩
    · have hlen := hplaced.length
      show List.length (List.map _ _) ≤ _
      rw [length_map]
      show d.partitions.length ≤ _
      omega
    · obtain ⟨q, hq, rfl⟩ := mem_map.mp hp
      have hfew := few_replicas hplaced hq
      exact ⟨(length_map _).trans_le hfew.1, (length_map _).trans_le hfew.2⟩

end Limits

/-- **The METADATA response is read back** by every client and peer, after any requests that ask for
    no more partitions, and find fewer topics, than a decoder takes. -/
theorem metadata_decodable (brokers : List BrokerEndpoint) (hfew : Few brokers)
    (hhosts : ∀ b ∈ brokers, Short b.host) (requests : List TopicRequest)
    (hrun : Along (serve config c) (Modest config c) (start (brokerIds brokers)) requests) :
    MetadataResponse.decode.run (metadataResponse brokers
        (requests.foldl (serve config c) (start (brokerIds brokers))) c).encode =
      some (metadataResponse brokers
        (requests.foldl (serve config c) (start (brokerIds brokers))) c, []) := by
  have hwithin := hrun.foldl (within_serve (brokerIds brokers))
    ⟨rfl, fun d hd => absurd hd not_mem_nil, Nat.zero_le _⟩
  exact (MetadataResponse.reads (wellFormed_response hfew hhosts hwithin)).complete

/-! ## 3. Beyond the limits -/

/-- A response with one topic, which has more partitions, is refused. -/
theorem decode_huge {m : MetadataResponse} {t : Protocol.TopicMetadata}
    (hheader : m.header.WellFormed) (hfew : Few m.brokers) (hhosts : ∀ b ∈ m.brokers, b.WellFormed)
    (htopics : m.topics = [t]) (hname : Short t.name)
    (hlong : maxArrayElements < t.partitions.length) (h32 : t.partitions.length < 2 ^ 32) :
    MetadataResponse.decode.run m.encode = none := by
  have htopic : ∀ u, Protocol.TopicMetadata.decode.run (t.encode ++ u) = none := by
    intro u
    unfold Protocol.TopicMetadata.encode Protocol.TopicMetadata.decode
    simp only [flatten_cons, append_assoc]
    rw [(Parser.Reads.string hname).run_bind, StateT.run_bind, Parser.run_getArray 24 h32,
      if_neg fun h => absurd (le_trans h (Nat.min_le_right _ _)) (Nat.not_le.mpr hlong)]
    rfl
  have harray : (Protocol.getArray 6 Protocol.TopicMetadata.decode).run
      (Protocol.putArray Protocol.TopicMetadata.encode [t] ++ []) = none := by
    rw [Parser.run_getArray 6 (by simp), length_singleton, times, StateT.run_bind,
      flatMap_singleton, htopic []]
    exact ite_self none
  rw [append_nil] at harray
  unfold MetadataResponse.encode MetadataResponse.decode
  simp only [flatten_cons, flatten_nil, append_nil, htopics]
  rw [(Protocol.ResponseHeader.reads hheader).run_bind, (Parser.Reads.i32 _).run_bind,
    (Protocol.reads_brokers hfew hhosts).run_bind, StateT.run_bind, harray]
  rfl

def oneBroker : List BrokerEndpoint := [⟨1, [104], 9092⟩]

theorem oneBroker_limits : Few oneBroker ∧ ∀ b ∈ oneBroker, Short b.host := by
  unfold Few Short
  decide

/-- The topic `t` with the partitions `0` to `p`. -/
def topicTo (p : Nat) : TopicDescriptor :=
  ⟨⟨"t", p + 1, 1, {}⟩, computeAssignments [1] ⟨"t", p + 1, 1, {}⟩⟩

/-- The requests that create it: one for so many partitions, and one for records in the last. -/
def requestsTo (p : Nat) : List TopicRequest :=
  [.create ⟨"t", p + 1, 1, {}, false⟩ none, .produce "t" p none]

section Huge

variable {p : Nat}

theorem placed_topicTo (p : Nat) : Placed [1] (topicTo p) :=
  ⟨show isValidTopicName "t" = true by decide +kernel, show (0 : Int) < p + 1 by omega, Int.one_pos,
    cons_ne_nil _ _, show 1 ≤ Int.bmod 1 (2 ^ 16) by decide, rfl, rfl⟩

theorem ensure_topicTo (p : Nat) : (start [1]).ensure 1 "t" (p + 1) 1 false none =
    ((start [1]).setTopics 1 [topicTo p], true) := by
  have hcreate : ((start [1]).metadata 1).createTopic ⟨"t", p + 1, 1, {}⟩ =
      .ok (topicTo p, true, ⟨[1], [topicTo p]⟩) :=
    createTopic_placed (m := ⟨[1], []⟩) (placed_topicTo p) rfl
  unfold ensure ensureTopic
  simp only [hcreate]
  exact congrArg (·, true) (send_nil _)

theorem executeCreateTopic_topicTo (p : Nat) :
    (start [1]).executeCreateTopic oneEach 1 ⟨"t", p + 1, 1, {}, false⟩ none =
      ((start [1]).setTopics 1 [topicTo p], true) := by
  unfold executeCreateTopic
  simp only [show ((p : Int) + 1) > 0 by omega]
  exact ensure_topicTo p

theorem serve_topicTo (hp : p + 1 < 2 ^ 31) {request : TopicRequest} (h : request ∈ requestsTo p) :
    serve oneEach 1 (start [1]) request = (start [1]).setTopics 1 [topicTo p] := by
  rcases mem_pair.mp h with rfl | rfl
  · exact congrArg Prod.fst (executeCreateTopic_topicTo p)
  · have hmod : Int.bmod (p + 1) (2 ^ 32) = p + 1 :=
      Int.bmod_eq_of_le (by omega) (by omega)
    have hmax : max (oneEach 1).defaultPartitions (p + 1) = p + 1 :=
      max_eq_right (show (1 : Int) ≤ p + 1 by omega)
    simp only [serve, resolvePartition]
    rw [hmod, hmax]
    exact congrArg Prod.fst (ensure_topicTo p)

/-- The topic is accepted and the response is refused. -/
theorem undecodable_topicTo (hlong : maxArrayElements ≤ p) (hp : p + 1 < 2 ^ 31)
    {request : TopicRequest} (h : request ∈ requestsTo p) :
    MetadataResponse.decode.run (metadataResponse oneBroker
      (serve oneEach 1 (start [1]) request) 1).encode = none := by
  rw [serve_topicTo hp h]
  have hlen : (topicTo p).partitions.length = p + 1 := by
    have h : ((topicTo p).partitions.length : Int) = p + 1 := (placed_topicTo p).length
    exact_mod_cast h
  have hwire : (wireTopic (describe (topicTo p))).partitions.length = p + 1 :=
    (length_map _).trans hlen
  have htopics : (metadataResponse oneBroker ((start [1]).setTopics 1 [topicTo p]) 1).topics =
      [wireTopic (describe (topicTo p))] := by
    rfl
  exact decode_huge (Nat.zero_le _) oneBroker_limits.1 oneBroker_limits.2 htopics
    (short_name (placed_topicTo p).name) (by omega) (by omega)

end Huge

/-- **One request makes the response unreadable**: the topic is accepted, and the response for all
    topics, which is also what the other brokers reconcile with, is refused by the decoder. -/
theorem huge_topic_undecodable :
    ((start (brokerIds oneBroker)).executeCreateTopic oneEach 1
        ⟨"t", (2 ^ 20 : Nat) + 1, 1, {}, false⟩ none).2 = true ∧
      ∀ request ∈ requestsTo (2 ^ 20), MetadataResponse.decode.run (metadataResponse oneBroker
        (serve oneEach 1 (start (brokerIds oneBroker)) request) 1).encode = none := by
  exact ⟨congrArg Prod.snd (executeCreateTopic_topicTo (2 ^ 20)),
    fun request h => undecodable_topicTo le_rfl (by decide) h⟩

/-- Two topics of a cluster of one broker. -/
theorem two_topics_decodable :
    MetadataResponse.decode.run (metadataResponse oneBroker
        ([TopicRequest.create ⟨"t", 2, 1, {}, false⟩ none, .produce "u" 3 none].foldl
          (serve oneEach 1) (start (brokerIds oneBroker))) 1).encode =
      some (metadataResponse oneBroker
        ([TopicRequest.create ⟨"t", 2, 1, {}, false⟩ none, .produce "u" 3 none].foldl
          (serve oneEach 1) (start (brokerIds oneBroker))) 1, []) := by
  refine metadata_decodable oneEach 1 oneBroker oneBroker_limits.1 oneBroker_limits.2 _
    ⟨?_, ?_, trivial⟩ <;> unfold Modest <;> decide +kernel

end Directory

end PulseLog
