/-
  Subject:   CREATE_TOPIC from the request of a client to the answer it gets
             (`Broker::ExecuteCreateTopic`, `Broker::EnsureTopic`).

  The broker that gets the request answers it, or asks the controller, reconciles, and answers with
  what it knows then. Nothing else happens in the cluster meanwhile, and no connection fails: a
  client is told of that, and of a topic whose partitions cannot be opened.

  * **`created_as_requested_iff`** -- the controller has what was asked for exactly if it had it
    before, or no one had the topic and the request has no settings;
    `other_topic_answered_ok` -- requests that are answered OK although it has not.
-/
import PulseLog.Broker.TopicAgreement

namespace PulseLog

open ClusterMetadata

namespace Directory

/-! ## 1. The request -/

/-- The loop of `ReconcileMetadataFromController`: a topic that is refused ends it. -/
def adoptTopics (m : ClusterMetadata) : List TopicMetadata → ClusterMetadata × Bool
  | [] => (m, true)
  | t :: rest =>
    match adoptTopic m t with
    | .error _ => (m, false)
    | .ok m' => adoptTopics m' rest

/-- What the broker stores of a topic. -/
def stored (s : Directory) (b : Nat) (topic : String) : Option TopicConfig :=
  ((s.metadata b).findTopic topic).map TopicDescriptor.config

variable (config : Nat → TopicDefaults)

/-- The topic a request at broker `b` asks for: its defaults stand in for what is unset. -/
def wanted (b : Nat) (req : CreateTopicRequest) : TopicConfig :=
  ⟨req.topic, if req.partitions > 0 then req.partitions else (config b).defaultPartitions,
    if req.replicationFactor > 0 then req.replicationFactor
      else (config b).defaultReplicationFactor, req.settings⟩

/-- `ExecuteCreateTopic` on broker `b`, with the controller's part of a forwarded request. -/
def requestTopic (s : Directory) (b : Nat) (req : CreateTopicRequest) (opened : Option Status) :
    Directory × Bool :=
  match ensureTopic b (s.metadata b) req.topic (wanted config b req).partitionCount
      (wanted config b req).replicationFactor req.fromController opened with
  | .answered result after d =>
    ((s.setTopics b after.topics).send (s.broadcast b d), result.isOk)
  | .forwarded fwd =>
    match s.brokers.head? with
    | none => (s, false)
    | some c =>
      match s.executeCreateTopic config c fwd opened with
      | (s', false) => (s', false)
      | (s', true) =>
        let (m, whole) := adoptTopics (s'.metadata b) ((s'.metadata c).buildMetadataResponse [])
        (s'.setTopics b m.topics, whole && m.hasTopic req.topic)

/-! ## 2. What is stored -/

section Stored

variable {config} {s s' : Directory} {b c x : Nat} {m m' : ClusterMetadata} {topic : String}
  {n r : Int} {here : Bool} {opened : Option Status} {d : TopicDescriptor}
  {bc : Option TopicDescriptor} {req fwd : CreateTopicRequest}

theorem stored_setTopics (ts : List TopicDescriptor) (h : x ≠ b) :
    (s.setTopics b ts).stored x topic = s.stored x topic := by
  unfold stored metadata
  rw [setTopics_topics_of_ne ts h]
  rfl

/-- An OK answer without the controller: the topic was there, or it is a new one. -/
theorem ensureTopic_ok (h : ensureTopic x m topic n r here opened = .answered (.ok d) m' bc) :
    (m' = m ∧ m.findTopic topic = some d) ∨
      (m.findTopic topic = none ∧ m'.findTopic topic = some d ∧ d.config = ⟨topic, n, r, {}⟩ ∧
        0 < n ∧ 0 < r ∧ (m.controllerId = some x ∨ here = true)) := by
  unfold ensureTopic getTopic at h
  cases hfind : m.findTopic topic with
  | some d' =>
    rw [hfind] at h
    cases h
    exact .inl ⟨rfl, rfl⟩
  | none =>
    rw [hfind] at h
    dsimp only at h
    split at h
    · rename_i hx
      split at h
      · cases h
      rename_i d' created m'' hcreate
      split at h
      · cases h
      cases h
      rcases createTopic_ok rfl hcreate with ⟨-, -, hd⟩ | ⟨-, hconfig, hplaced, -, rfl⟩
      · cases hfind.symm.trans hd
      · have hn := hplaced.count
        have hr := hplaced.factor
        have hname : topic = d.name := (congrArg TopicConfig.name hconfig).symm
        rw [hconfig] at hn hr
        refine .inr ⟨rfl, ?_, hconfig, hn, hr, hx⟩
        rw [findTopic, findKey_putKey, if_pos hname]
    · split at h <;> cases h

theorem ensureTopic_forwarded (h : ensureTopic x m topic n r here opened = .forwarded fwd) :
    fwd = ⟨topic, n, r, {}, false⟩ ∧ m.findTopic topic = none ∧ m.controllerId ≠ some x := by
  unfold ensureTopic getTopic at h
  cases hfind : m.findTopic topic with
  | some d => rw [hfind] at h; cases h
  | none =>
    rw [hfind] at h
    dsimp only at h
    split at h
    · split at h
      · cases h
      split at h <;> cases h
    · rename_i hx
      split at h
      · cases h
      · cases h
        exact ⟨rfl, rfl, fun hc => hx (.inl hc)⟩

/-- **What is stored behind an OK answer** that needed no other broker. -/
theorem ensured_stored
    (h : ensureTopic x (s.metadata x) topic n r here opened = .answered (.ok d) m' bc) :
    (s.stored x topic ≠ none ∧
        ((s.setTopics x m'.topics).send (s.broadcast x bc)).stored x topic = s.stored x topic) ∨
      (s.stored x topic = none ∧ 0 < n ∧ 0 < r ∧ (s.brokers.head? = some x ∨ here = true) ∧
        ((s.setTopics x m'.topics).send (s.broadcast x bc)).stored x topic =
          some ⟨topic, n, r, {}⟩) := by
  have hafter : ((s.setTopics x m'.topics).send (s.broadcast x bc)).stored x topic =
      (findKey TopicDescriptor.name m'.topics topic).map TopicDescriptor.config := by
    show (findKey _ ((s.setTopics x m'.topics).topics x) _).map _ = _
    rw [setTopics_topics_same]
  have hbefore : s.stored x topic = ((s.metadata x).findTopic topic).map TopicDescriptor.config :=
    rfl
  rw [hafter, hbefore]
  rcases ensureTopic_ok h with ⟨rfl, hd⟩ | ⟨hnone, hd, hconfig, hn, hr, hx⟩
  · exact .inl ⟨by rw [hd]; exact Option.some_ne_none _, rfl⟩
  · refine .inr ⟨by rw [hnone]; rfl, hn, hr, hx, ?_⟩
    rw [show findKey TopicDescriptor.name m'.topics topic = some d from hd, Option.map_some,
      hconfig]

end Stored

/-! ## 3. The answer -/

/-- The controller `c` has the topic as it is wanted; or neither it nor the broker that is asked has
    the topic, and the request has no settings. -/
def AsRequested (s : Directory) (c b : Nat) (req : CreateTopicRequest) : Prop :=
  s.stored c req.topic = some (wanted config b req) ∨
    s.stored c req.topic = none ∧ s.stored b req.topic = none ∧ req.settings = {} ∧
      0 < (wanted config b req).partitionCount ∧ 0 < (wanted config b req).replicationFactor

section Answer

variable {config} {s s' : Directory} {b c : Nat} {req : CreateTopicRequest} {opened : Option Status}

/-- A topic with these counts and no settings is the wanted one. -/
theorem eq_wanted_iff {n r : Int} (hn : 0 < n) (hr : 0 < r)
    (hcount : 0 < (wanted config b req).partitionCount → n = (wanted config b req).partitionCount)
    (hfactor : 0 < (wanted config b req).replicationFactor →
      r = (wanted config b req).replicationFactor) :
    some (⟨req.topic, n, r, {}⟩ : TopicConfig) = some (wanted config b req) ↔
      req.settings = {} ∧ 0 < (wanted config b req).partitionCount ∧
        0 < (wanted config b req).replicationFactor := by
  constructor
  · intro h
    have h := Option.some.inj h
    have hn' : n = (wanted config b req).partitionCount := congrArg TopicConfig.partitionCount h
    have hr' : r = (wanted config b req).replicationFactor :=
      congrArg TopicConfig.replicationFactor h
    exact ⟨(congrArg TopicConfig.settings h).symm, hn' ▸ hn, hr' ▸ hr⟩
  · intro h
    rw [hcount h.2.1, hfactor h.2.2, ← h.1]
    rfl

/-- **An OK answer to CREATE_TOPIC** means that the controller `c` has what was asked for exactly if
    it had it before, or the topic is new and the request has no settings. -/
theorem created_as_requested_iff (hc : s.brokers.head? = some c)
    (hvia : b = c ∨ req.fromController = false)
    (hok : s.requestTopic config b req opened = (s', true)) :
    s'.stored c req.topic = some (wanted config b req) ↔ AsRequested config s c b req := by
  -- a topic that is stored already stays as it is
  have hkept : s.stored c req.topic ≠ none ∨ s.stored b req.topic ≠ none →
      s'.stored c req.topic = s.stored c req.topic →
      (s'.stored c req.topic = some (wanted config b req) ↔ AsRequested config s c b req) := by
    intro hone heq
    rw [heq]
    refine ⟨.inl, fun h => h.resolve_right fun hnew => ?_⟩
    exact hone.elim (fun h => h hnew.1) fun h => h hnew.2.1
  unfold requestTopic at hok
  split at hok
  · rename_i result after d hensure
    obtain ⟨rfl, hresult⟩ := Prod.mk.inj hok
    cases result with
    | error e => cases hresult
    | ok found =>
      rcases ensured_stored hensure with ⟨hhad, hsame⟩ | ⟨hnone, hn, hr, hx, hnew⟩
      · by_cases hbc : b = c
        · subst hbc
          exact hkept (.inl hhad) hsame
        · exact hkept (.inr hhad) (stored_setTopics _ (Ne.symm hbc))
      · have hbc : b = c := by
          rcases hvia with hbc | hlocal
          · exact hbc
          · rw [hc, hlocal] at hx
            exact (Option.some.inj (hx.resolve_right Bool.false_ne_true)).symm
        subst hbc
        unfold AsRequested
        rw [hnew, eq_wanted_iff hn hr (fun _ => rfl) (fun _ => rfl), hnone]
        simp
  · rename_i fwd hensure
    obtain ⟨rfl, hnone, hbc⟩ := ensureTopic_forwarded hensure
    rw [hc] at hok
    dsimp only at hok
    have hne : c ≠ b := fun he => hbc (he ▸ hc)
    have hhere : s.stored b req.topic = none := congrArg (Option.map TopicDescriptor.config) hnone
    split at hok
    · cases hok
    rename_i s₁ hexec
    obtain ⟨rfl, -⟩ := Prod.mk.inj hok
    rw [stored_setTopics _ hne] at hkept ⊢
    unfold executeCreateTopic ensure at hexec
    split at hexec
    · rename_i result after d hensure'
      obtain ⟨rfl, hresult⟩ := Prod.mk.inj hexec
      cases result with
      | error e => cases hresult
      | ok found =>
        rcases ensured_stored hensure' with ⟨hhad, hsame⟩ | ⟨hfree, hn, hr, -, hnew⟩
        · exact hkept (.inl hhad) hsame
        · unfold AsRequested
          rw [hnew, eq_wanted_iff hn hr (fun h => if_pos h) (fun h => if_pos h), hfree, hhere]
          simp
    · cases hexec

end Answer

/-- A cluster in which the topic has one partition. -/
def onePartition : Directory :=
  ((start [1, 2]).requestTopic oneEach 1 ⟨"t", 1, 1, {}, false⟩ none).1

/-- **A request for another topic of that name is answered OK**, by the controller and through
    another broker, and the topic stays as it is. A new topic does not have the retention that was
    asked for. -/
theorem other_topic_answered_ok :
    (∀ b ∈ [1, 2], (onePartition.requestTopic oneEach b ⟨"t", 3, 2, {}, false⟩ none).2 = true ∧
      (onePartition.requestTopic oneEach b ⟨"t", 3, 2, {}, false⟩ none).1.stored 1 "t" =
        some ⟨"t", 1, 1, {}⟩) ∧
    ∀ b ∈ [1, 2], (onePartition.requestTopic oneEach b ⟨"u", 1, 1, ⟨1000, 4096, .lz4Like⟩, false⟩
        none).2 = true ∧
      (onePartition.requestTopic oneEach b ⟨"u", 1, 1, ⟨1000, 4096, .lz4Like⟩, false⟩
        none).1.stored 1 "u" = some ⟨"u", 1, 1, {}⟩ := by
  decide +kernel

/-- A new topic that is asked for through the other broker. -/
theorem new_topic_as_requested :
    (onePartition.requestTopic oneEach 2 ⟨"u", 3, 0, {}, false⟩ none).1.stored 1 "u" =
      some ⟨"u", 3, 1, {}⟩ := by
  have hok : onePartition.requestTopic oneEach 2 ⟨"u", 3, 0, {}, false⟩ none =
      ((onePartition.requestTopic oneEach 2 ⟨"u", 3, 0, {}, false⟩ none).1, true) :=
    Prod.ext rfl (by decide +kernel)
  exact (created_as_requested_iff rfl (.inr rfl) hok).mpr (.inr (by decide +kernel))

end Directory

end PulseLog
