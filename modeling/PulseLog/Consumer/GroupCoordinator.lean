/-
  Subject:   Consumer groups: membership, generations and committed offsets
             (include/pulselog/consumer/group_coordinator.h, src/consumer/group_coordinator.cc,
             OffsetStore::Commit and Get in src/consumer/offset_store.cc).

  Every call runs under the coordinator's mutex and is one step, except `Commit`: its fence check
  and its write to the offset store are two (`commitFence`, `commitWrite`). The partition lookup
  asks the broker's metadata, which changes between calls, so each call gets the lookup it meets.
  Generations are `int32_t` and the member counter is `uint64_t`; both wrap here.
-/
import Mathlib.Algebra.Ring.Nat
import PulseLog.Consumer.Assignor
import PulseLog.General.Keyed
import PulseLog.Base.Status

namespace PulseLog

/-! ## 1. Groups -/

/-- `GroupMember`. -/
structure GroupMember where
  memberId : String
  topics : List String
  sessionTimeoutMs : Int
  lastHeartbeatMs : Int
  assignment : List TopicPartition
  deriving Repr, DecidableEq

/-- `GroupState`. -/
inductive GroupState where
  | empty
  | rebalancing
  | stable
  deriving Repr, DecidableEq

/-- `Group`. The members are a map from their ids, kept as a list. `partitions` is not in the
    source: it notes what the lookup returned at the last rebalance. -/
structure ConsumerGroup where
  groupId : String
  state : GroupState
  generation : Int
  leaderId : String
  strategy : AssignmentStrategy
  members : List GroupMember
  lastRebalanceMs : Int
  partitions : List TopicPartition
  deriving Repr, DecidableEq

/-- `PartitionLookup`. -/
abbrev PartitionLookup := List String → List TopicPartition

namespace ConsumerGroup

/-- A group that a first join creates. -/
def fresh (groupId : String) (strategy : AssignmentStrategy) : ConsumerGroup :=
  ⟨groupId, .empty, 0, "", strategy, [], 0, []⟩

def ids (g : ConsumerGroup) : List String := g.members.map GroupMember.memberId

def find (g : ConsumerGroup) (memberId : String) : Option GroupMember :=
  findKey GroupMember.memberId g.members memberId

/-- `members[id] = member`. -/
def put (g : ConsumerGroup) (member : GroupMember) : ConsumerGroup :=
  { g with members := putKey GroupMember.memberId g.members member }

/-- The next `int32_t`. -/
def nextGeneration (generation : Int) : Int := Int.bmod (generation + 1) (2 ^ 32)

/-- The topics any member subscribes to. -/
def subscribed (g : ConsumerGroup) : List String :=
  sortUnique (g.members.flatMap GroupMember.topics)

/-- `RebalanceLocked`. -/
def rebalanceLocked (g : ConsumerGroup) (lookup : PartitionLookup) (nowMs : Int) : ConsumerGroup :=
  let g := { g with generation := nextGeneration g.generation, lastRebalanceMs := nowMs }
  if g.members = [] then { g with state := .empty, leaderId := "" }
  else
    let partitions := lookup g.subscribed
    let assignment := assign g.strategy g.ids partitions
    { g with
      members := g.members.map (fun m => { m with assignment := held assignment m.memberId })
      leaderId := (g.ids.min?).getD ""
      state := .stable
      partitions := partitions }

/-- The ids of the members whose session has run out. -/
def expired (g : ConsumerGroup) (nowMs : Int) : List String :=
  (g.members.filter (fun m => nowMs - m.lastHeartbeatMs > m.sessionTimeoutMs)).map
    GroupMember.memberId

/-- `members.erase` for each of the ids. -/
def erase (g : ConsumerGroup) (ids : List String) : ConsumerGroup :=
  { g with members := g.members.filter (fun m => m.memberId ∉ ids) }

end ConsumerGroup

/-! ## 2. Requests and responses -/

structure JoinGroupRequest where
  groupId : String
  memberId : String
  topics : List String
  sessionTimeoutMs : Int
  strategy : AssignmentStrategy
  deriving Repr, DecidableEq

structure JoinGroupResponse where
  error : Option Status
  generation : Int
  memberId : String
  leaderId : String
  assignment : List TopicPartition
  deriving Repr, DecidableEq

structure HeartbeatRequest where
  groupId : String
  memberId : String
  generation : Int
  deriving Repr, DecidableEq

structure HeartbeatResponse where
  error : Option Status
  generation : Int
  rejoinRequired : Bool
  deriving Repr, DecidableEq

structure LeaveGroupRequest where
  groupId : String
  memberId : String
  deriving Repr, DecidableEq

structure CommitOffsetRequest where
  groupId : String
  memberId : String
  generation : Int
  topic : String
  partition : Int
  offset : Int
  metadata : String
  deriving Repr, DecidableEq

def CommitOffsetRequest.target (req : CommitOffsetRequest) : TopicPartition :=
  ⟨req.topic, req.partition⟩

/-- `OffsetKey`. -/
structure OffsetKey where
  groupId : String
  topic : String
  partition : Int
  deriving Repr, DecidableEq

/-- `CommittedOffset`. -/
structure CommittedOffset where
  offset : Int
  metadata : String
  commitTime : Int
  deriving Repr, DecidableEq

structure FetchOffsetRequest where
  groupId : String
  topic : String
  partition : Int
  deriving Repr, DecidableEq

structure FetchOffsetResponse where
  offset : Int
  metadata : String
  deriving Repr, DecidableEq

/-! ## 3. The coordinator -/

/-- `GroupCoordinator`, with the offset store's map. -/
structure GroupCoordinator where
  groups : List ConsumerGroup
  memberCounter : Nat
  defaultSessionTimeoutMs : Int
  offsets : List (OffsetKey × CommittedOffset)
  deriving Repr, DecidableEq

namespace GroupCoordinator

def make (defaultSessionTimeoutMs : Int) : GroupCoordinator := ⟨[], 0, defaultSessionTimeoutMs, []⟩

def findGroup (c : GroupCoordinator) (groupId : String) : Option ConsumerGroup :=
  findKey ConsumerGroup.groupId c.groups groupId

/-- `groups_[id] = group`. -/
def putGroup (c : GroupCoordinator) (group : ConsumerGroup) : GroupCoordinator :=
  { c with groups := putKey ConsumerGroup.groupId c.groups group }

/-- The id `AllocateMemberId` makes of a counter value. -/
def memberName (groupId : String) (counter : Nat) : String := groupId ++ "-" ++ counter.repr

/-- The group a join acts on: `groups_[request.group_id]`. -/
def joined (c : GroupCoordinator) (req : JoinGroupRequest) : ConsumerGroup :=
  (c.findGroup req.groupId).getD (ConsumerGroup.fresh req.groupId req.strategy)

/-- The member is not in the group, or comes without an id. -/
def isNew (c : GroupCoordinator) (req : JoinGroupRequest) : Bool :=
  req.memberId = "" || ((c.joined req).find req.memberId).isNone

/-- The id of the member that joins; a new one is allocated. -/
def joinId (c : GroupCoordinator) (req : JoinGroupRequest) : String :=
  if c.isNew req then memberName req.groupId ((c.memberCounter + 1) % 2 ^ 64) else req.memberId

/-- The member's entry as `group.members[member_id]` finds it. -/
def joinEntry (c : GroupCoordinator) (req : JoinGroupRequest) : GroupMember :=
  ((c.joined req).find (c.joinId req)).getD ⟨"", [], 10000, 0, []⟩

def subscriptionChanged (c : GroupCoordinator) (req : JoinGroupRequest) : Bool :=
  (c.joinEntry req).topics ≠ req.topics

/-- The group with the member's entry written, before any rebalance. -/
def entered (c : GroupCoordinator) (req : JoinGroupRequest) (nowMs : Int) : ConsumerGroup :=
  (c.joined req).put { c.joinEntry req with
    memberId := c.joinId req
    topics := req.topics
    sessionTimeoutMs :=
      if req.sessionTimeoutMs > 0 then req.sessionTimeoutMs else c.defaultSessionTimeoutMs
    lastHeartbeatMs := nowMs }

/-- The group a join leaves: a rebalance only if its shape changed. -/
def joinGroup (c : GroupCoordinator) (lookup : PartitionLookup) (req : JoinGroupRequest)
    (nowMs : Int) : ConsumerGroup :=
  if c.isNew req || c.subscriptionChanged req || (c.entered req nowMs).state ≠ .stable then
    (c.entered req nowMs).rebalanceLocked lookup nowMs
  else c.entered req nowMs

/-- `Join`. -/
def join (c : GroupCoordinator) (lookup : PartitionLookup) (req : JoinGroupRequest) (nowMs : Int) :
    JoinGroupResponse × GroupCoordinator :=
  if req.groupId = "" then
    (⟨some (.invalidArgument "group id must not be empty"), -1, "", "", []⟩, c)
  else if req.topics = [] then
    (⟨some (.invalidArgument "a member must subscribe to at least one topic"), -1, "", "", []⟩, c)
  else
    let group := c.joinGroup lookup req nowMs
    (⟨none, group.generation, c.joinId req, group.leaderId,
        ((group.find (c.joinId req)).map GroupMember.assignment).getD []⟩,
      { c with
        memberCounter :=
          if c.isNew req then (c.memberCounter + 1) % 2 ^ 64 else c.memberCounter }.putGroup group)

/-- `Heartbeat`. -/
def heartbeat (c : GroupCoordinator) (req : HeartbeatRequest) (nowMs : Int) :
    HeartbeatResponse × GroupCoordinator :=
  match c.findGroup req.groupId with
  | none => (⟨some ⟨.notFound, s!"unknown group '{req.groupId}'"⟩, -1, false⟩, c)
  | some group =>
    match group.find req.memberId with
    | none =>
      (⟨some ⟨.unknownMember, s!"member '{req.memberId}' is not in the group"⟩,
        group.generation, true⟩, c)
    | some member =>
      if req.generation ≠ group.generation then
        (⟨some ⟨.rebalanceInProgress,
            s!"generation {req.generation} is stale; current is {group.generation}"⟩,
          group.generation, true⟩, c)
      else
        (⟨none, group.generation, false⟩,
          c.putGroup (group.put { member with lastHeartbeatMs := nowMs }))

/-- `Leave`. -/
def leave (c : GroupCoordinator) (lookup : PartitionLookup) (req : LeaveGroupRequest)
    (nowMs : Int) : Option Status × GroupCoordinator :=
  match c.findGroup req.groupId with
  | none => (some ⟨.notFound, "unknown group"⟩, c)
  | some group =>
    if req.memberId ∈ group.ids then
      (none, c.putGroup ((group.erase [req.memberId]).rebalanceLocked lookup nowMs))
    else (some ⟨.unknownMember, "member is not in the group"⟩, c)

/-- What `ExpireSessions` makes of one group. -/
def expireGroup (lookup : PartitionLookup) (nowMs : Int) (g : ConsumerGroup) : ConsumerGroup :=
  if g.expired nowMs = [] then g
  else (g.erase (g.expired nowMs)).rebalanceLocked lookup nowMs

/-- `ExpireSessions`: how many members it evicts, and the coordinator without them. -/
def expireSessions (c : GroupCoordinator) (lookup : PartitionLookup) (nowMs : Int) :
    Nat × GroupCoordinator :=
  ((c.groups.map (fun g => (g.expired nowMs).length)).sum,
    { c with groups := c.groups.map (expireGroup lookup nowMs) })

/-- The fence of `Commit`, under the coordinator's mutex: the error it answers with, if any. -/
def commitFence (c : GroupCoordinator) (req : CommitOffsetRequest) : Option Status :=
  if req.offset < 0 then some (.invalidArgument "committed offset must not be negative")
  -- a commit without a member id is an unmanaged consumer's
  else if req.memberId = "" then none
  else
    match c.findGroup req.groupId with
    | none => some ⟨.notFound, s!"unknown group '{req.groupId}'"⟩
    | some group =>
      match group.find req.memberId with
      | none => some ⟨.unknownMember, "member is not in the group"⟩
      | some member =>
        if req.generation ≠ group.generation then
          some ⟨.illegalGeneration,
            s!"generation {req.generation} is stale; current is {group.generation}"⟩
        else if req.target ∉ member.assignment then
          some ⟨.illegalGeneration,
            s!"partition {req.target.toText} is not assigned to this member"⟩
        else none

/-- `OffsetStore::Commit`, under the store's mutex. `io` is the error of its log append, if any. -/
def commitWrite (c : GroupCoordinator) (req : CommitOffsetRequest) (io : Option Status)
    (nowMs : Int) : Option Status × GroupCoordinator :=
  match io with
  | some e => (some (e.withContext "committing consumer offset"), c)
  | none =>
    let key : OffsetKey := ⟨req.groupId, req.topic, req.partition⟩
    (none, { c with
      offsets := (key, ⟨req.offset, req.metadata, nowMs⟩) ::
        c.offsets.filter (fun e => e.1 ≠ key) })

/-- `Commit` with nothing between its two steps. -/
def commit (c : GroupCoordinator) (req : CommitOffsetRequest) (io : Option Status) (nowMs : Int) :
    Option Status × GroupCoordinator :=
  match c.commitFence req with
  | some e => (some e, c)
  | none => c.commitWrite req io nowMs

/-- `FetchOffset`: a group that never committed has no position. -/
def fetchOffset (c : GroupCoordinator) (req : FetchOffsetRequest) : FetchOffsetResponse :=
  match c.offsets.find? (fun e => e.1 = ⟨req.groupId, req.topic, req.partition⟩) with
  | none => ⟨-1, ""⟩
  | some e => ⟨e.2.offset, e.2.metadata⟩

end GroupCoordinator

end PulseLog
