/-
  Subject:   A follower and the REPLICATE requests of its leader, with all their fields
             (`Broker::ExecuteReplicate` of src/broker/request_handler.cc).

  `Cluster` keeps of a request what decides about the log. Here are the other fields too: the
  leader's high-water mark, which the handler caps by its own log end and hands to
  `OnLeaderAppend`, and the answer with its texts. What the disk does to the append is given with
  the request.

  * `followerMark_iff` -- the mark the handler computes never reaches a follower's high-water mark:
    `OnLeaderAppend` drops it, and what it recomputes is left to the leader.
-/
import PulseLog.Broker.Lifetime
import PulseLog.Protocol.Fields

namespace PulseLog

/-- The bytes of a text. -/
def text (s : String) : Bytes := s.toUTF8.data.toList

/-- What the disk can do to an append: refuse it before its records are there (a write that fails, a
    disk that is full), or fail the fsync that comes after them. -/
inductive AppendFault where
  | refused (e : Status)
  | unsynced (e : Status)
  deriving Repr, DecidableEq

/-- `AppendWithOffsets` on such a disk: its error, if any, and the log. -/
def ReplicaLog.appendReplicated (l : ReplicaLog) (data : Bytes) (recordCount : Nat) :
    Option AppendFault → Option Status × ReplicaLog
  | some (.refused e) => (some e, l)
  | fault =>
    match l.appendWithOffsets data recordCount with
    | .error e => (some e, l)
    | .ok l' =>
      match fault with
      | some (.unsynced e) => (some e, l')
      | _ => (none, l')

namespace PartitionReplica

/-! ## 1. The handler -/

/-- `OnLeaderAppend` as a follower's handler calls it, with the mark in the place of the log end. -/
def onLeaderAppendAt (r : PartitionReplica) (_newLogEndOffset : Int) :
    List DurabilityWaiter × PartitionReplica :=
  r.onLeaderAppend

/-- The answer about a log, under an error or none. -/
def replicateAnswer (r : PartitionReplica) (brokerId : Int32) (error : Option ErrorCode)
    (message : Bytes) (log : ReplicaLog) : Protocol.ReplicateResponse where
  header := ⟨error, message⟩
  followerId := brokerId
  logEndOffset := .ofNat log.logEndOffset
  flushedOffset := .ofNat log.flushedOffset
  leaderEpoch := .ofNat r.assignment.leaderEpoch

/-- `ExecuteReplicate` from the replica on. -/
def handleReplicate (r : PartitionReplica) (brokerId : Int32) (m : Protocol.ReplicateRequest)
    (fault : Option AppendFault) :
    Protocol.ReplicateResponse × (List DurabilityWaiter × PartitionReplica) :=
  let logEnd : Int := r.log.logEndOffset
  if m.leaderEpoch.toInt < r.assignment.leaderEpoch then
    (r.replicateAnswer brokerId (some .notLeader) (text
      s!"stale leader epoch {m.leaderEpoch.toInt}; current is {r.assignment.leaderEpoch}") r.log,
      ([], r))
  else if m.recordCount = 0 ∧ m.baseOffset.toInt = logEnd then
    (r.replicateAnswer brokerId none [] r.log,
      r.onLeaderAppendAt (min m.leaderHighWaterMark.toInt logEnd))
  else if m.baseOffset.toInt ≠ logEnd then
    (r.replicateAnswer brokerId (some .outOfRange) (text
      s!"expected base offset {logEnd}, got {m.baseOffset.toInt}") r.log, ([], r))
  else
    match r.log.appendReplicated m.records m.recordCount.toNat fault with
    | (some e, log) =>
      (r.replicateAnswer brokerId (some e.code) (text e.message) log, ([], { r with log := log }))
    | (none, log) =>
      (r.replicateAnswer brokerId none [] log,
        ({ r with log := log }).onLeaderAppendAt (min m.leaderHighWaterMark.toInt log.logEndOffset))

/-- The request is accepted. -/
def Takes (r : PartitionReplica) (brokerId : Int32) (m : Protocol.ReplicateRequest)
    (fault : Option AppendFault) : Prop :=
  (r.handleReplicate brokerId m fault).1.header.error = none

instance (r : PartitionReplica) (brokerId : Int32) (m : Protocol.ReplicateRequest)
    (fault : Option AppendFault) : Decidable (r.Takes brokerId m fault) :=
  inferInstanceAs (Decidable (_ = _))

/-- The replica behind the request. -/
def replicated (r : PartitionReplica) (brokerId : Int32) (m : Protocol.ReplicateRequest)
    (fault : Option AppendFault) : PartitionReplica :=
  (r.handleReplicate brokerId m fault).2.2

end PartitionReplica

/-- What `ExecuteReplicate` finds in the broker: its id, the partitions that are open, and what
    opening one gives that the metadata assigns to this broker (nothing, if it does not or the open
    fails). -/
structure Hosting where
  brokerId : Int32
  find : Protocol.TopicPartition → Option PartitionReplica
  openPartition : Protocol.TopicPartition → Option PartitionReplica

namespace Hosting

/-- The answer of a broker that does not host the partition. -/
def notHosted (h : Hosting) (m : Protocol.ReplicateRequest) : Protocol.ReplicateResponse where
  header := ⟨some .notFound, text "this broker does not host " ++ m.topic ++
    text s!"-{m.partition.toInt}"⟩
  followerId := h.brokerId
  logEndOffset := 0
  flushedOffset := -1
  leaderEpoch := 0

/-- `ExecuteReplicate` behind its decoder: the answer, and the replica of the partition after it. -/
def executeReplicate (h : Hosting) (m : Protocol.ReplicateRequest) (fault : Option AppendFault) :
    Protocol.ReplicateResponse × Option PartitionReplica :=
  match (h.find ⟨m.topic, m.partition⟩).or (h.openPartition ⟨m.topic, m.partition⟩) with
  | none => (h.notHosted m, none)
  | some r => ((r.handleReplicate h.brokerId m fault).1, some (r.replicated h.brokerId m fault))

end Hosting

/-! ## 2. The handler of the cluster -/

/-- The fields the cluster's handler acts on. -/
def ReplicateRequest.ofMessage (m : Protocol.ReplicateRequest) : ReplicateRequest :=
  ⟨m.leaderEpoch.toInt, m.baseOffset.toInt, m.recordCount.toNat, m.records⟩

namespace PartitionReplica

section Handler

variable {r : PartitionReplica} {brokerId : Int32} {m : Protocol.ReplicateRequest}
  {fault : Option AppendFault}

theorem probe_ofMessage : (ReplicateRequest.ofMessage m).recordCount = 0 ↔ m.recordCount = 0 :=
  (UInt32.toNat_inj (b := 0))

/-- **The cluster's handler is this one**: on a disk that does not fail the two give the same error
    and the same replica. -/
theorem handleReplicate_refines : (r.handleReplicate brokerId m none).1.header.error =
        (r.executeReplicate (.ofMessage m)).1.error ∧
      (r.handleReplicate brokerId m none).2 = (r.executeReplicate (.ofMessage m)).2 := by
  have hepoch : (ReplicateRequest.ofMessage m).leaderEpoch = m.leaderEpoch.toInt := rfl
  have hbase : (ReplicateRequest.ofMessage m).baseOffset = m.baseOffset.toInt := rfl
  simp only [handleReplicate, executeReplicate, replicateAppend, hepoch, probe_ofMessage, hbase]
  split
  · exact ⟨rfl, rfl⟩
  split
  · exact ⟨rfl, rfl⟩
  split
  · exact ⟨rfl, rfl⟩
  simp only [ReplicaLog.appendReplicated, ReplicateRequest.ofMessage]
  cases r.log.appendWithOffsets m.records m.recordCount.toNat with
  | error e => exact ⟨rfl, rfl⟩
  | ok log => exact ⟨rfl, rfl⟩

/-- An append without an error adds the records. -/
theorem appendReplicated_ok {l l' : ReplicaLog} {data : Bytes} {count : Nat}
    (h : l.appendReplicated data count fault = (none, l')) :
    l'.logEndOffset = l.logEndOffset + count := by
  have happend : l.appendWithOffsets data count = .ok l' := by
    unfold ReplicaLog.appendReplicated at h
    split at h
    · simp at h
    · split at h
      · simp at h
      · split at h
        · simp at h
        · rename_i hok _ _
          rw [hok, (Prod.mk.inj h).2]
  obtain ⟨rs, -, hlen, hadd⟩ := ReplicaLog.appendWithOffsets_ok happend
  simp only [ReplicaLog.logEndOffset, hadd.records, List.length_append, hlen]

/-- **What an accepted request leaves**: the log is longer by the records of the request, and the
    mark was recomputed. -/
theorem taken (h : r.Takes brokerId m fault) : ∃ log : ReplicaLog,
    log.logEndOffset = r.log.logEndOffset + m.recordCount.toNat ∧
      r.replicated brokerId m fault = ({ r with log := log }).onLeaderAppend.2 := by
  unfold Takes handleReplicate at h
  unfold replicated handleReplicate
  simp only at h ⊢
  split at h
  · cases h
  rename_i hepoch
  rw [if_neg hepoch]
  split at h
  · rename_i hprobe
    rw [if_pos hprobe]
    exact ⟨r.log, by rw [hprobe.1]; rfl, rfl⟩
  rename_i hprobe
  rw [if_neg hprobe]
  split at h
  · cases h
  rename_i hbase
  rw [if_neg hbase]
  split at h
  · cases h
  rename_i log happend
  exact ⟨log, appendReplicated_ok happend, rfl⟩

/-! ## 3. The follower's high-water mark -/

theorem recomputeHighWaterMark_follower (hf : ¬ r.isLeader) : r.recomputeHighWaterMark = r :=
  if_neg fun h => hf h.1

/-- A follower's mark does not move with an accepted request. -/
theorem taken_follower (hf : ¬ r.isLeader) (h : r.Takes brokerId m fault) :
    (r.replicated brokerId m fault).highWaterMark = r.highWaterMark ∧
      (r.replicated brokerId m fault).log.logEndOffset =
        r.log.logEndOffset + m.recordCount.toNat := by
  obtain ⟨log, hlog, hafter⟩ := taken h
  have hsame : ({ r with log := log }).recomputeHighWaterMark =
      { r with log := log } := recomputeHighWaterMark_follower hf
  rw [hafter, onLeaderAppend, hsame]
  exact ⟨rfl, hlog⟩

end Handler

/-- A replica's events, REPLICATE requests with all their fields among them. -/
inductive ReplicaEvent where
  | live (e : LifeEvent)
  | request (brokerId : Int32) (m : Protocol.ReplicateRequest) (fault : Option AppendFault)

def serve (r : PartitionReplica) : ReplicaEvent → PartitionReplica
  | .live e => r.live e
  | .request brokerId m fault => r.replicated brokerId m fault

/-- The replica is not made the leader. -/
def StaysFollower (r : PartitionReplica) : ReplicaEvent → Prop
  | .live (.setAssignment a) => a.leader ≠ r.self
  | _ => True

/-- A follower on the broker `id` whose mark is `mark`. -/
structure FollowerAt (id : Nat) (mark : Int) (r : PartitionReplica) : Prop where
  broker : r.self = id
  follows : ¬ r.isLeader
  mark : r.highWaterMark = mark

section Run

variable {r : PartitionReplica} {self : Nat} {mark : Int}

section

variable (h : FollowerAt self mark r)
include h

/-- The calls that evaluate the waiters leave the mark of a follower. -/
theorem FollowerAt.settle :
    FollowerAt self mark r.recomputeHighWaterMark.extractSatisfied.2 := by
  rw [recomputeHighWaterMark_follower h.follows]
  exact ⟨h.broker, h.follows, h.mark⟩

theorem FollowerAt.event (e : Event) :
    FollowerAt self mark (r.step e) := by
  have hsame : ∀ g b, FollowerAt self mark (r.updateFollower b g) :=
    fun g b => ⟨h.broker, h.follows, h.mark⟩
  cases e with
  | append t data count =>
    simp only [step]
    split
    · exact ⟨h.broker, h.follows, h.mark⟩
    · exact h
  | flush target => exact ⟨h.broker, h.follows, h.mark⟩
  | leaderAppend => exact h.settle
  | progress b logEnd flushed now =>
    simp only [step, onFollowerProgress]
    split
    · exact (hsame _ b).settle
    · exact h
  | outOfSync b =>
    simp only [step, markFollowerOutOfSync]
    split
    · exact (hsame _ b).settle
    · exact h
  | addWaiter w => exact ⟨h.broker, h.follows, h.mark⟩
  | sweep => exact h.settle
  | expire now => exact ⟨h.broker, h.follows, h.mark⟩

/-- A log that grows does not move the mark of a follower, whichever way the request ends. -/
theorem FollowerAt.withLog (log : ReplicaLog) :
    FollowerAt self mark { r with log := log } :=
  ⟨h.broker, h.follows, h.mark⟩

theorem FollowerAt.executeReplicate (q : ReplicateRequest) :
    FollowerAt self mark (r.executeReplicate q).2.2 := by
  unfold PartitionReplica.executeReplicate
  split
  · exact (h.withLog _).settle
  · exact h
  · dsimp only
    split
    · exact h
    split
    · exact h.settle
    · exact h

theorem FollowerAt.replicated (brokerId : Int32)
    (m : Protocol.ReplicateRequest) (fault : Option AppendFault) :
    FollowerAt self mark (r.replicated brokerId m fault) := by
  unfold PartitionReplica.replicated handleReplicate
  dsimp only
  split
  · exact h
  split
  · exact h.settle
  split
  · exact h
  split
  · exact h.withLog _
  · exact (h.withLog _).settle

theorem FollowerAt.serve {e : ReplicaEvent} (he : r.StaysFollower e) :
    FollowerAt self mark (r.serve e) := by
  cases e with
  | request brokerId m fault => exact h.replicated brokerId m fault
  | live e =>
    cases e with
    | event e => exact h.event e
    | failAll => exact ⟨h.broker, h.follows, h.mark⟩
    | setAssignment a => exact ⟨h.broker, he, h.mark⟩
    | replicate q => exact h.executeReplicate q

end

/-- **A follower's high-water mark**, in every run in which it stays one. An accepted request leaves
    the maximum of the mark and the leader's mark capped by the log end exactly if that maximum is
    the mark it had, which is still the one of the start of the run. So a follower that is caught up
    takes the leader's mark from a request only where that is not above its own. -/
theorem followerMark_iff {r₀ : PartitionReplica} (hf : ¬ r₀.isLeader) {es : List ReplicaEvent}
    (hes : Along serve StaysFollower r₀ es) (hr : es.foldl serve r₀ = r) {brokerId : Int32}
    {m : Protocol.ReplicateRequest} {fault : Option AppendFault} (h : r.Takes brokerId m fault) :
    r.highWaterMark = r₀.highWaterMark ∧
      ((r.replicated brokerId m fault).highWaterMark = max r.highWaterMark
          (min m.leaderHighWaterMark.toInt (r.replicated brokerId m fault).log.logEndOffset) ↔
        min m.leaderHighWaterMark.toInt (r.log.logEndOffset + m.recordCount.toNat) ≤
          r.highWaterMark) ∧
      (m.leaderHighWaterMark.toInt ≤ r.log.logEndOffset + m.recordCount.toNat →
        ((r.replicated brokerId m fault).highWaterMark =
            max r.highWaterMark m.leaderHighWaterMark.toInt ↔
          m.leaderHighWaterMark.toInt ≤ r₀.highWaterMark)) := by
  have hrun : FollowerAt r₀.self r₀.highWaterMark r := by
    rw [← hr]
    exact hes.foldl (fun s e hs he => hs.serve he) ⟨rfl, hf, rfl⟩
  obtain ⟨hmark, hend⟩ := taken_follower hrun.follows h
  have hmarks := hrun.mark
  refine ⟨hmarks, ?_, fun hcaught => ?_⟩
  · omega
  · omega

end Run

/-- The leader sends its first record. -/
def firstBatch : List ReplicaEvent :=
  [.request 1 ⟨[116], 0, 0, 0, 0, -1, 0, 0, 1, stamp 7 0 sampleRecord⟩ none]

/-- The follower of a fresh partition after that. -/
def caughtUp : PartitionReplica := firstBatch.foldl serve freshFollower

/-- A probe of the leader, whose own mark is `mark`. -/
def probeAt (mark : Int64) : Protocol.ReplicateRequest := ⟨[116], 0, 0, 0, 1, 0, mark, 0, 0, []⟩

/-- As long as the leader's mark is 0, the follower's is the right one. -/
theorem probe_at_zero : caughtUp.Takes 1 (probeAt 0) none ∧
    (caughtUp.replicated 1 (probeAt 0) none).highWaterMark = max caughtUp.highWaterMark
      (min 0 (caughtUp.replicated 1 (probeAt 0) none).log.logEndOffset) := by
  have htakes : caughtUp.Takes 1 (probeAt 0) none := by decide +kernel
  have hfollows : ¬ freshFollower.isLeader := by decide +kernel
  have hstays : Along serve StaysFollower freshFollower firstBatch := ⟨trivial, trivial⟩
  have hiff := followerMark_iff hfollows hstays rfl htakes
  exact ⟨htakes, hiff.2.1.mpr (by decide +kernel)⟩

/-- **The mark stays behind**: the follower has the record, the leader's mark has reached 1 and the
    probe says so. -/
theorem probe_leaves_mark : caughtUp.Takes 1 (probeAt 1) none ∧ caughtUp.log.logEndOffset = 1 ∧
    (caughtUp.replicated 1 (probeAt 1) none).highWaterMark = 0 ∧
    ¬ (caughtUp.replicated 1 (probeAt 1) none).highWaterMark = max caughtUp.highWaterMark
      (min 1 (caughtUp.replicated 1 (probeAt 1) none).log.logEndOffset) := by
  decide +kernel

end PartitionReplica

end PulseLog
