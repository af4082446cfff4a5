/-
  Subject:   Which topics the members of a group are served from
             (src/consumer/group_coordinator.cc, the lookup of `Broker::Start` in
             src/broker/broker.cc).

  `RebalanceLocked` deals the partitions of all topics of the group to all members, and `Join`
  rebalances only if the group changed. The broker's topics change between the calls: `Hub` is the
  coordinator with the metadata that its lookup reads.

  * `assigned_subscribed` -- members get partitions of their own topics in every run in which the
    members of a group always ask for the same topics; `foreign_topic_assigned` -- not otherwise;
  * `join_covers_iff` -- after a join the members hold the partitions that exist exactly if it
    rebalances or nothing changed since the last rebalance; `created_topic_not_assigned` -- a topic
    created in between is not picked up.
-/
import PulseLog.Consumer.CommitFence
import PulseLog.Metadata.ClusterMetadata

namespace PulseLog

open List

namespace GroupCoordinator

open ConsumerGroup

/-! ## 1. The coordinator of a broker -/

/-- The lookup that the broker gives its coordinator; unknown topics have no partitions. -/
def partitionLookup (m : ClusterMetadata) : PartitionLookup := fun topics =>
  topics.flatMap fun topic =>
    match m.getTopic topic with
    | .error _ => []
    | .ok d => d.partitions.map fun p => ⟨topic, p.index⟩

/-- The coordinator, and the metadata of its broker. -/
structure Hub where
  coordinator : GroupCoordinator
  metadata : ClusterMetadata

namespace Hub

inductive Event where
  /-- topics are created or deleted on the broker, or reach it from the controller -/
  | topics (metadata : ClusterMetadata)
  | join (req : JoinGroupRequest) (nowMs : Int)
  | heartbeat (req : HeartbeatRequest) (nowMs : Int)
  | leave (req : LeaveGroupRequest) (nowMs : Int)
  | commit (req : CommitOffsetRequest) (io : Option Status) (nowMs : Int)
  | expireSessions (nowMs : Int)

def lookup (s : Hub) : PartitionLookup := partitionLookup s.metadata

def call (s : Hub) (e : Call) : Hub := { s with coordinator := s.coordinator.call e }

def step (s : Hub) : Event → Hub
  | .topics m => { s with metadata := m }
  | .join req now => s.call (.join s.lookup req now)
  | .heartbeat req now => s.call (.heartbeat req now)
  | .leave req now => s.call (.leave s.lookup req now)
  | .commit req io now => s.call (.commit req io now)
  | .expireSessions now => s.call (.expireSessions s.lookup now)

def start (defaultSessionTimeoutMs : Int) (m : ClusterMetadata) : Hub :=
  ⟨make defaultSessionTimeoutMs, m⟩

def run (s : Hub) (es : List Event) : Hub := es.foldl step s

end Hub

theorem topic_mem_of_lookup {m : ClusterMetadata} {topics : List String} {t : TopicPartition}
    (h : t ∈ partitionLookup m topics) : t.topic ∈ topics := by
  obtain ⟨topic, htopic, ht⟩ := mem_flatMap.mp h
  split at ht
  · exact absurd ht not_mem_nil
  · obtain ⟨p, -, rfl⟩ := mem_map.mp ht
    exact htopic

/-! ## 2. Topics of one's own -/

/-- Members hold partitions of the topics they subscribe to. -/
def Within (g : ConsumerGroup) : Prop :=
  ∀ m ∈ g.members, ∀ t ∈ m.assignment, t.topic ∈ m.topics

/-- All members subscribe to the same topics. -/
def Uniform (g : ConsumerGroup) : Prop :=
  ∀ m ∈ g.members, ∀ m' ∈ g.members, m.topics ⊆ m'.topics

section Within

variable {c : GroupCoordinator} {g : ConsumerGroup} {md : ClusterMetadata} {now : Int}

theorem Uniform.erase (h : Uniform g) (ids : List String) : Uniform (g.erase ids) :=
  fun m hm m' hm' => h m (mem_of_mem_filter hm) m' (mem_of_mem_filter hm')

/-- **A rebalance of uniform members** gives them partitions of their own topics. -/
theorem Uniform.rebalance (h : Uniform g) :
    Uniform (g.rebalanceLocked (partitionLookup md) now) ∧
      Within (g.rebalanceLocked (partitionLookup md) now) := by
  by_cases hne : g.members = []
  · have hnil : (g.rebalanceLocked (partitionLookup md) now).members = [] :=
      rebalanceLocked_members_nil.mpr hne
    constructor <;> intro m hm <;> exact absurd (hnil ▸ hm) not_mem_nil
  have hids : g.ids ≠ [] := by simpa [ids] using hne
  rw [rebalanceLocked_eq hne]
  refine ⟨fun m hm m' hm' => ?_, fun m hm t ht => ?_⟩
  · obtain ⟨n, hn, rfl⟩ := mem_map.mp hm
    obtain ⟨n', hn', rfl⟩ := mem_map.mp hm'
    exact h n hn n' hn'
  · obtain ⟨n, hn, rfl⟩ := mem_map.mp hm
    have hdealt := (assign_perm g.strategy hids _).2.mem_iff.mp (mem_dealt ht)
    have htopic := topic_mem_of_lookup (mem_sortUnique.mp hdealt)
    obtain ⟨n', hn', hmem⟩ := mem_flatMap.mp (mem_sortUnique.mp htopic)
    exact h n' hn' n hn hmem

/-- The members of a group after one is written. -/
theorem mem_put {m m' : GroupMember} (h : m' ∈ (g.put m).members) :
    m' = m ∨ m' ∈ g.members ∧ m'.memberId ≠ m.memberId := mem_putKey.mp h

theorem Uniform.put {m m' : GroupMember} (h : Uniform g) (hw : Within g) (hm : m ∈ g.members)
    (htopics : m'.topics = m.topics) (hassigned : m'.assignment = m.assignment) :
    Uniform (g.put m') ∧ Within (g.put m') := by
  -- the entry shows what the one it replaces showed
  have hold : ∀ n ∈ (g.put m').members, ∃ o ∈ g.members, n.topics = o.topics ∧
      n.assignment = o.assignment := by
    intro n hn
    rcases mem_put hn with rfl | ⟨hn, -⟩
    · exact ⟨m, hm, htopics, hassigned⟩
    · exact ⟨n, hn, rfl, rfl⟩
  constructor
  · intro n hn n' hn'
    obtain ⟨o, ho, ht, -⟩ := hold n hn
    obtain ⟨o', ho', ht', -⟩ := hold n' hn'
    rw [ht, ht']
    exact h o ho o' ho'
  · intro n hn t htn
    obtain ⟨o, ho, ht, ha⟩ := hold n hn
    rw [ht]
    exact hw o ho t (ha ▸ htn)

/-- Whoever else is in the group subscribes to the topics of the request. -/
def SameTopics (c : GroupCoordinator) (req : JoinGroupRequest) : Prop :=
  ∀ m ∈ (c.joined req).members, m.memberId ≠ c.joinId req →
    m.topics ⊆ req.topics ∧ req.topics ⊆ m.topics

/-- All groups are uniform, and served from their topics. -/
def Served (c : GroupCoordinator) : Prop := ∀ g ∈ c.groups, Uniform g ∧ Within g

theorem Served.putGroup (h : Served c) (hg : Uniform g ∧ Within g) : Served (c.putGroup g) := by
  intro g' hg'
  rcases mem_putKey.mp hg' with rfl | ⟨hg', -⟩
  · exact hg
  · exact h g' hg'

theorem Served.joined (h : Served c) (req : JoinGroupRequest) :
    Uniform (c.joined req) ∧ Within (c.joined req) := by
  unfold GroupCoordinator.joined
  cases hf : c.findGroup req.groupId with
  | none => constructor <;> intro m hm <;> exact absurd hm not_mem_nil
  | some g => exact h g (findKey_some hf).1

theorem Served.join (h : Served c) {req : JoinGroupRequest} (hs : SameTopics c req) :
    Served (c.call (.join (partitionLookup md) req now)) := by
  by_cases hv : Valid req
  swap
  · rw [call, join_invalid hv]
    exact h
  rw [call, join_eq hv]
  refine Served.putGroup h ?_
  obtain ⟨hu, hw⟩ := h.joined req
  unfold joinGroup
  split
  · refine Uniform.rebalance fun m hm m' hm' => ?_
    rcases mem_put hm with rfl | ⟨hm, hne⟩ <;> rcases mem_put hm' with rfl | ⟨hm', hne'⟩
    · exact List.Subset.refl _
    · exact (hs m' hm' hne').2
    · exact (hs m hm hne).1
    · exact hu m hm m' hm'
  · rename_i hkeep
    simp only [Bool.or_eq_true, not_or, Bool.not_eq_true] at hkeep
    obtain ⟨⟨hnew, hsub⟩, -⟩ := hkeep
    obtain ⟨m, hm, hentry, htopics⟩ := joinEntry_eq hnew hsub
    exact hu.put hw (findKey_some hm).1 htopics.symm (by rw [hentry])

namespace Hub

/-- A join asks for the topics that the other members of its group ask for. -/
def Agreeing (s : Hub) : Event → Prop
  | .join req _ => SameTopics s.coordinator req
  | _ => True

theorem served_step (s : Hub) (e : Event) (h : Served s.coordinator) (he : s.Agreeing e) :
    Served (s.step e).coordinator := by
  cases e with
  | topics m => exact h
  | join req now => exact Served.join h he
  | heartbeat req now =>
    simp only [step, Hub.call, GroupCoordinator.call, heartbeat]
    split
    · exact h
    rename_i g hg
    split
    · exact h
    rename_i m hm
    split
    · exact h
    · obtain ⟨hu, hw⟩ := h g (findKey_some hg).1
      exact h.putGroup (hu.put hw (findKey_some hm).1 rfl rfl)
  | leave req now =>
    simp only [step, Hub.call, GroupCoordinator.call, leave]
    split
    · exact h
    rename_i g hg
    split
    · exact h.putGroup ((h g (findKey_some hg).1).1.erase _).rebalance
    · exact h
  | commit req io now =>
    simp only [step, Hub.call, GroupCoordinator.call, commit]
    split
    · exact h
    · cases io <;> exact h
  | expireSessions now =>
    intro g' hg'
    obtain ⟨g, hg, rfl⟩ := mem_map.mp hg'
    unfold expireGroup
    split
    · exact h g hg
    · exact ((h g hg).1.erase _).rebalance

/-- **Members are assigned partitions of topics they subscribe to**, in every run in which each join
    asks for the topics of the other members. -/
theorem assigned_subscribed (timeout : Int) (m : ClusterMetadata) (es : List Event)
    (hes : Along step Agreeing (start timeout m) es) :
    ∀ g ∈ ((start timeout m).run es).coordinator.groups, Within g := by
  have hserved : Served ((start timeout m).run es).coordinator :=
    hes.foldl served_step
      fun g hg => absurd hg not_mem_nil
  exact fun g hg => (hserved g hg).2

end Hub

end Within

/-- Two members of a group subscribe to one topic each. -/
def twoTopics : List Hub.Event :=
  [.join ⟨"g", "", ["a"], 0, .range⟩ 1, .join ⟨"g", "", ["b"], 0, .range⟩ 2]

/-- One broker with the topics a and b, of one partition each. -/
def twoTopicsMetadata : ClusterMetadata :=
  ⟨[0], ["a", "b"].map fun name => ⟨⟨name, 1, 1, {}⟩, [⟨⟨0, 0, [0]⟩, 0, [0]⟩]⟩⟩

/-- **A member is assigned the partition of a topic it never asked for**, and the one that asked for
    it gets nothing. -/
theorem foreign_topic_assigned :
    ((((Hub.start 10 twoTopicsMetadata).run twoTopics).coordinator.groups.flatMap
        ConsumerGroup.members).map fun m => (m.topics, m.assignment)) =
      [(["a"], [⟨"a", 0⟩, ⟨"b", 0⟩]), (["b"], [])] ∧
      ¬ ∀ g ∈ ((Hub.start 10 twoTopicsMetadata).run twoTopics).coordinator.groups, Within g := by
  unfold Within
  decide +kernel

/-- Two members of one group ask for both topics, in any order, and one of them leaves. -/
def sameTopics : List Hub.Event :=
  [.join ⟨"g", "", ["a", "b"], 0, .roundRobin⟩ 1, .join ⟨"g", "", ["b", "a"], 0, .range⟩ 2,
    .leave ⟨"g", "g-1"⟩ 3]

theorem same_topics_served :
    Along Hub.step Hub.Agreeing (Hub.start 10 twoTopicsMetadata) sameTopics ∧
      ∀ g ∈ ((Hub.start 10 twoTopicsMetadata).run sameTopics).coordinator.groups, Within g := by
  have hes : Along Hub.step Hub.Agreeing (Hub.start 10 twoTopicsMetadata) sameTopics := by
    refine ⟨?_, ?_, trivial, trivial⟩ <;> unfold Hub.Agreeing SameTopics <;> decide +kernel
  exact ⟨hes, Hub.assigned_subscribed 10 _ _ hes⟩

/-! ## 3. Partitions that exist -/

namespace Hub

/-- The members of the group hold the partitions that exist now for the topics they subscribe to. -/
def Covers (s : Hub) (gid : String) : Prop :=
  ∀ g, s.coordinator.findGroup gid = some g →
    ∀ t, (∃ m ∈ g.members, t ∈ m.assignment) ↔ t ∈ s.lookup g.subscribed

/-- The join makes the coordinator rebalance, or the topics of the group have the partitions that
    were found at its last rebalance. -/
def Current (s : Hub) (req : JoinGroupRequest) : Prop :=
  s.coordinator.isNew req = true ∨ s.coordinator.subscriptionChanged req = true ∨
    (s.coordinator.joined req).state ≠ .stable ∨
    ∀ t, t ∈ (s.coordinator.joined req).partitions ↔
      t ∈ s.lookup (s.coordinator.joined req).subscribed

/-- Every group with members is balanced. -/
structure Sound (c : GroupCoordinator) : Prop where
  distinct : Distinct c
  balanced : ∀ gid g, c.findGroup gid = some g → g.members ≠ [] → Balanced g

section Covers

variable {c : GroupCoordinator} {s : Hub} {req : JoinGroupRequest} {now : Int}

theorem Sound.call (h : Sound c) (e : Call) : Sound (c.call e) := by
  refine ⟨Committing.distinct_call h.distinct e, fun gid g' hg' hne => ?_⟩
  have hs := groupStep_call h.distinct e gid
  have hold := h.balanced gid
  rw [hg'] at hs
  generalize c.findGroup gid = o at hs hold
  cases hs with
  | same => exact hold g' rfl hne
  | kept hk => exact hk.balanced (hold _ rfl (hk.ne_nil hne))
  | rebalanced g lookup now _ _ hn _ =>
    exact rebalanceLocked_balanced hn (mt rebalanceLocked_members_nil.mpr hne)

theorem sound_run (timeout : Int) (m : ClusterMetadata) (es : List Event) :
    Sound ((start timeout m).run es).coordinator := by
  have hstart : Sound (start timeout m).coordinator := by
    refine ⟨⟨nodup_nil, fun gid g hg => ?_⟩, fun gid g hg => ?_⟩ <;>
      simp [start, make, findGroup, findKey] at hg
  refine List.foldlRecOn (motive := fun s => Sound s.coordinator) es step hstart fun s hs e _ => ?_
  cases e with
  | topics m => exact hs
  | join | heartbeat | leave | commit | expireSessions =>
    simp only [step, Hub.call]
    exact hs.call _

theorem mem_shares {g : ConsumerGroup} (h : Balanced g) (t : TopicPartition) :
    (∃ m ∈ g.members, t ∈ m.assignment) ↔ t ∈ g.partitions := by
  rw [← mem_sortUnique, ← h.shares.mem_iff, mem_flatten]
  constructor
  · intro ht
    obtain ⟨m, hm, htm⟩ := ht
    exact ⟨_, mem_map_of_mem hm, htm⟩
  · intro ht
    obtain ⟨l, hl, htl⟩ := ht
    obtain ⟨m, hm, rfl⟩ := mem_map.mp hl
    exact ⟨m, hm, htl⟩

theorem subscribed_rebalanced {g : ConsumerGroup} {lookup : PartitionLookup}
    (hne : g.members ≠ []) : (g.rebalanceLocked lookup now).subscribed = g.subscribed := by
  rw [rebalanceLocked_eq hne]
  simp only [subscribed, flatMap_map]

theorem findGroup_join (hv : Valid req) :
    (s.step (.join req now)).coordinator.findGroup req.groupId =
    some (s.coordinator.joinGroup s.lookup req now) := by
  show (s.coordinator.call _).findGroup _ = _
  rw [GroupCoordinator.call, join_eq hv, findGroup_putGroup, if_pos (joinGroup_groupId _ _ _).symm]

/-- **A join leaves the members with the partitions that exist** exactly if it rebalances, or
    nothing has changed since the last rebalance: in every state of every run. -/
theorem join_covers_iff (timeout : Int) (m : ClusterMetadata) (es : List Event)
    (req : JoinGroupRequest) (now : Int) (hv : Valid req) :
    (((start timeout m).run es).step (.join req now)).Covers req.groupId ↔
      ((start timeout m).run es).Current req := by
  have hsound := sound_run timeout m es
  generalize (start timeout m).run es = s at hsound
  have hgroup : (s.step (.join req now)).coordinator.findGroup req.groupId =
      some (s.coordinator.joinGroup s.lookup req now) := findGroup_join hv
  have hcovers : (s.step (.join req now)).Covers req.groupId ↔
      ∀ t, (∃ m ∈ (s.coordinator.joinGroup s.lookup req now).members, t ∈ m.assignment) ↔
        t ∈ s.lookup (s.coordinator.joinGroup s.lookup req now).subscribed := by
    unfold Covers
    rw [hgroup]
    exact ⟨fun h => h _ rfl, fun h g hg => by cases hg; exact h⟩
  rw [hcovers]
  by_cases hre : s.coordinator.isNew req || s.coordinator.subscriptionChanged req ||
      (s.coordinator.entered req now).state ≠ .stable
  · -- a rebalance deals what the lookup finds now
    have hne : (s.coordinator.entered req now).members ≠ [] :=
      ne_nil_of_mem (mem_putKey.mpr (.inl rfl))
    have hnodup : (s.coordinator.entered req now).ids.Nodup :=
      nodup_putKey (joined_nodup hsound.distinct req) _
    rw [joinGroup, if_pos hre, subscribed_rebalanced hne]
    refine ⟨fun _ => ?_, fun _ t => ?_⟩
    · rw [Bool.or_eq_true, Bool.or_eq_true, decide_eq_true_iff, or_assoc] at hre
      exact hre.imp_right (Or.imp_right .inl)
    · rw [mem_shares (rebalanceLocked_balanced hnodup hne), rebalanceLocked_eq hne]
  · -- without one the members keep what they have
    have hcurrent : s.Current req ↔ ∀ t, t ∈ (s.coordinator.joined req).partitions ↔
        t ∈ s.lookup (s.coordinator.joined req).subscribed := by
      simp only [Bool.or_eq_true, decide_eq_true_iff, not_or] at hre
      exact ⟨fun h => ((h.resolve_left hre.1.1).resolve_left hre.1.2).resolve_left hre.2,
        fun h => .inr (.inr (.inr h))⟩
    rw [joinGroup, if_neg hre, hcurrent]
    simp only [Bool.or_eq_true, not_or, Bool.not_eq_true] at hre
    have hkept := kept_entered hsound.distinct hre.1.1 hre.1.2 now
    obtain ⟨j, hj⟩ := joinId_mem hre.1.1
    have hbal := hsound.balanced _ _ (findGroup_joined hre.1.1) (ne_nil_of_mem (findKey_some hj).1)
    rw [hkept.subscribed]
    refine forall_congr' fun t => ?_
    rw [mem_shares (hkept.balanced hbal), hkept.partitions]

end Covers

/-- A member subscribes to a topic that the broker does not know yet. The topic is created, and the
    member joins again. -/
def lateTopic (m : ClusterMetadata) : List Event :=
  [.join ⟨"g", "", ["a"], 0, .range⟩ 1, .topics m, .join ⟨"g", "g-1", ["a"], 0, .range⟩ 2]

/-- **A topic created behind the subscription is not picked up** by a member that joins again: both
    joins succeed, the topic has a partition by then, and the member has none. -/
theorem created_topic_not_assigned :
    ∃ d m, (⟨[0], []⟩ : ClusterMetadata).createTopic ⟨"a", 1, 1, {}⟩ = .ok (d, true, m) ∧
      ((((start 10 ⟨[0], []⟩).run (lateTopic m)).coordinator.findGroup "g").map fun g =>
        (((start 10 ⟨[0], []⟩).run (lateTopic m)).lookup g.subscribed,
          g.members.map GroupMember.assignment)) = some ([⟨"a", 0⟩], [[]]) ∧
      ¬ ((start 10 ⟨[0], []⟩).run (lateTopic m)).Covers "g" := by
  let m : ClusterMetadata := ⟨[0], [⟨⟨"a", 1, 1, {}⟩, [⟨⟨0, 0, [0]⟩, 0, [0]⟩]⟩]⟩
  have hheld : ((((start 10 ⟨[0], []⟩).run (lateTopic m)).coordinator.findGroup "g").map fun g =>
      (((start 10 ⟨[0], []⟩).run (lateTopic m)).lookup g.subscribed,
        g.members.map GroupMember.assignment)) = some ([⟨"a", 0⟩], [[]]) := by decide +kernel
  refine ⟨⟨⟨"a", 1, 1, {}⟩, [⟨⟨0, 0, [0]⟩, 0, [0]⟩]⟩, m, by decide +kernel, hheld, fun h => ?_⟩
  obtain ⟨g, hg, hpair⟩ := Option.map_eq_some_iff.mp hheld
  obtain ⟨hlookup, hassigned⟩ := Prod.mk.inj hpair
  obtain ⟨x, hx, ht⟩ := (h g hg ⟨"a", 0⟩).mpr (by rw [hlookup]; exact mem_singleton_self _)
  have hnil := mem_map_of_mem (f := GroupMember.assignment) hx
  rw [hassigned, mem_singleton] at hnil
  rw [hnil] at ht
  exact absurd ht not_mem_nil

/-- The first join of a group rebalances it. -/
theorem first_join_covers : Valid ⟨"g", "", ["a"], 0, .range⟩ ∧
    (((start 10 twoTopicsMetadata).run []).step (.join ⟨"g", "", ["a"], 0, .range⟩ 1)).Covers "g" :=
  ⟨by decide +kernel, (join_covers_iff 10 twoTopicsMetadata [] ⟨"g", "", ["a"], 0, .range⟩ 1
    (by decide +kernel)).mpr (.inl (by decide +kernel))⟩

end Hub

end GroupCoordinator

end PulseLog
