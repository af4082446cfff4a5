/-
  Subject:   The brokers of one partition and the messages between them
             (src/replication/replicator.cc, src/broker/request_handler.cc).

  A broker runs with its `PartitionReplica`, or it is stopped and only its log is there -- the log
  the next open would recover. The network keeps every message that was ever sent, and a delivery
  names one of them: a message can be lost, come late, come twice, or overtake another.

  * `step` -- one event of a run: a produce request in its three parts, a message, a flush, a
    waiter sweep, a crash (of the process, also inside an append, or of the machine), a restart.
    It returns the waiters whose callbacks ran with an OK status;
  * `Moves` -- what an event can do, `step_moves` -- a step does no more; `Remains` -- what a crash
    leaves in the files of the broker that it stops;
  * `Recoverable` -- a crash meets only records that parse on their own, so that recovery keeps
    them.
-/
import PulseLog.Broker.PartitionReplica

namespace PulseLog

/-! ## 1. Replication messages -/

/-- `ReplicateRequest`, the fields the follower acts on. -/
structure ReplicateRequest where
  leaderEpoch : Int
  baseOffset : Int
  recordCount : Nat
  records : Bytes
  deriving Repr, DecidableEq

/-- `ReplicateResponse`, the fields the sender acts on. -/
structure ReplicateResponse where
  error : Option ErrorCode
  logEndOffset : Nat
  flushedOffset : Nat
  deriving Repr, DecidableEq

namespace PartitionReplica

/-- The position of a follower as the leader knows it: its log end and its flushed offset. -/
def followerPosition (r : PartitionReplica) (peer : Nat) : Int × Int :=
  match r.followers.find? (fun f => f.broker == peer) with
  | some f => (f.logEndOffset, f.flushedOffset)
  | none => (0, 0)

/-- `Sender::SendPending` for one partition whose log starts at 0. A read returns a run of whole
    records from the follower's position; `limit` is how many fit into its byte budget, and none
    where the read fails. -/
def sendPending (r : PartitionReplica) (peer limit : Nat) : Option ReplicateRequest :=
  if ¬ r.isLeader ∨ peer ∉ r.assignment.replicas ∨ peer = r.self then none
  else
    let position := r.followerPosition peer
    let logEnd : Int := r.log.logEndOffset
    if position.1 ≥ logEnd then
      if position.2 ≥ logEnd then none
      -- a progress probe
      else some ⟨r.assignment.leaderEpoch, position.1, 0, []⟩
    else
      let found := (r.log.records.drop position.1.toNat).take limit
      if found = [] then none
      else some ⟨r.assignment.leaderEpoch, position.1, found.length, found.flatten⟩

/-- What `Broker::ExecuteReplicate` does to the log: `none` unless it appends. -/
def replicateAppend (r : PartitionReplica) (q : ReplicateRequest) :
    Option (Except Status ReplicaLog) :=
  let logEnd : Int := r.log.logEndOffset
  if q.leaderEpoch < r.assignment.leaderEpoch then none
  else if q.recordCount = 0 ∧ q.baseOffset = logEnd then none
  else if q.baseOffset ≠ logEnd then none
  else some (r.log.appendWithOffsets q.records q.recordCount)

/-- `Broker::ExecuteReplicate`: the answer, and the replica with the waiters it completed. -/
def executeReplicate (r : PartitionReplica) (q : ReplicateRequest) :
    ReplicateResponse × (List DurabilityWaiter × PartitionReplica) :=
  let logEnd : Int := r.log.logEndOffset
  match r.replicateAppend q with
  | some (.ok log) =>
    (⟨none, log.logEndOffset, log.flushedOffset⟩, ({ r with log := log }).onLeaderAppend)
  | some (.error e) => (⟨some e.code, r.log.logEndOffset, r.log.flushedOffset⟩, ([], r))
  | none =>
    if q.leaderEpoch < r.assignment.leaderEpoch then
      (⟨some .notLeader, r.log.logEndOffset, r.log.flushedOffset⟩, ([], r))
    else if q.recordCount = 0 ∧ q.baseOffset = logEnd then
      (⟨none, r.log.logEndOffset, r.log.flushedOffset⟩, r.onLeaderAppend)
    else (⟨some .outOfRange, r.log.logEndOffset, r.log.flushedOffset⟩, ([], r))

/-- What the sender does with an answer: progress is taken from an OK answer and from a refusal
    that reports where the follower's log ends. -/
def onReplicateResponse (r : PartitionReplica) (peer : Nat) (resp : ReplicateResponse)
    (nowMs : Int) : List DurabilityWaiter × PartitionReplica :=
  match resp.error with
  | none => r.onFollowerProgress peer resp.logEndOffset resp.flushedOffset nowMs
  | some .outOfRange => r.onFollowerProgress peer resp.logEndOffset resp.flushedOffset nowMs
  | some _ => ([], r)

end PartitionReplica

/-! ## 2. The cluster -/

/-- A broker: running, or stopped with the log its next open recovers. -/
inductive Node where
  | up (r : PartitionReplica)
  | down (log : ReplicaLog)

def Node.log : Node → ReplicaLog
  | .up r => r.log
  | .down log => log

/-- The replica set of a partition; its leader is a member. -/
structure ReplicaSet where
  assignment : PartitionAssignment
  leader_mem : assignment.leader ∈ assignment.replicas

/-- The brokers, the messages sent so far, the produce requests of the leader between their append
    and their `AddWaiter`, and the quorum requests answered OK so far. -/
structure Cluster where
  set : ReplicaSet
  node : Nat → Node
  requests : List (Nat × ReplicateRequest)
  responses : List (Nat × ReplicateResponse)
  handlers : List DurabilityWaiter
  acked : List DurabilityWaiter

namespace Cluster

def leader (c : Cluster) : Nat := c.set.assignment.leader

/-- All brokers run on empty logs. -/
def start (set : ReplicaSet) : Cluster where
  set := set
  node := fun b => .up (PartitionReplica.make set.assignment b ReplicaLog.empty)
  requests := []
  responses := []
  handlers := []
  acked := []

def setNode (c : Cluster) (b : Nat) (n : Node) : Cluster :=
  { c with node := fun b' => if b' = b then n else c.node b' }

/-- What can happen. -/
inductive Event where
  /-- `ExecuteProduce` up to its append -/
  | produce (appendTime : Int) (data : Bytes) (recordCount : Nat) (mode : AckMode)
      (deadlineMs : Int)
  /-- `OnLeaderAppend` on the leader -/
  | leaderAppend
  /-- the handler in place `i` calls `AddWaiter` -/
  | addWaiter (i : Nat)
  | send (peer limit : Nat)
  /-- the request in place `i` reaches its follower -/
  | deliver (i : Nat)
  /-- the response in place `i` reaches the sender -/
  | reply (i : Nat) (nowMs : Int)
  | outOfSync (peer : Nat)
  | flush (broker target : Nat)
  | sweep
  | expire (nowMs : Int)
  | processCrash (broker : Nat) (found : ReplicaLog.Reopening)
  /-- the leader's process dies inside an append; `kept` records of the batch are whole -/
  | crashInProduce (appendTime : Int) (data : Bytes) (recordCount kept : Nat)
      (found : ReplicaLog.Reopening)
  /-- a follower's process dies inside the append of a request -/
  | crashInDeliver (i kept : Nat) (found : ReplicaLog.Reopening)
  /-- the machine dies; the disk keeps `kept` records, and all that an fsync covers -/
  | machineCrash (broker kept : Nat) (found : ReplicaLog.Reopening)
  | restart (broker : Nat)
  deriving Repr, DecidableEq

/-- Run a method of the leader's replica. -/
def onLeader (c : Cluster) (f : PartitionReplica → List DurabilityWaiter × PartitionReplica) :
    List DurabilityWaiter × Cluster :=
  match c.node c.leader with
  | .down _ => ([], c)
  | .up r => ((f r).1, c.setNode c.leader (.up (f r).2))

/-- A broker stops; the leader's handlers go with it. -/
def stop (c : Cluster) (b : Nat) (log : ReplicaLog) : Cluster :=
  { c.setNode b (.down log) with handlers := if b = c.leader then [] else c.handlers }

/-- The broker that an event stops, and the records its files hold then. -/
def crashed (c : Cluster) : Event → Option (Nat × ReplicaLog)
  | .processCrash b _ =>
    match c.node b with
    | .down _ => none
    | .up r => some (b, r.log)
  | .crashInProduce t data count kept _ =>
    match c.node c.leader with
    | .down _ => none
    | .up r =>
      match r.log.appendAssigningOffsets t data count with
      | .error _ => none
      | .ok log => some (c.leader, log.cut (r.log.logEndOffset + kept))
  | .crashInDeliver i kept _ =>
    match c.requests[i]? with
    | none => none
    | some (b, q) =>
      match c.node b with
      | .down _ => none
      | .up r =>
        match r.replicateAppend q with
        | some (.ok log) => some (b, log.cut (r.log.logEndOffset + kept))
        | _ => none
  | .machineCrash b kept _ => some (b, (c.node b).log.machineCrash kept)
  | _ => none

/-- A crash; what is left is the log the next open finds. -/
def crash (c : Cluster) (e : Event) (found : ReplicaLog.Reopening) : Cluster :=
  match c.crashed e with
  | none => c
  | some (b, log) => c.stop b (log.reopen found)

/-- `ExecuteProduce` refuses a quorum write without enough in-sync replicas. -/
def refuses (r : PartitionReplica) (mode : AckMode) : Prop :=
  mode = .quorum ∧ r.inSyncReplicas < r.assignment.quorumSize

instance (r : PartitionReplica) (mode : AckMode) : Decidable (refuses r mode) :=
  inferInstanceAs (Decidable (_ ∧ _))

/-- One event: the waiters that complete with OK, and the next state. An event that cannot happen
    in a state leaves it as it is. -/
def step (c : Cluster) : Event → List DurabilityWaiter × Cluster
  | .produce t data count mode deadline =>
    match c.node c.leader with
    | .down _ => ([], c)
    | .up r =>
      if refuses r mode then ([], c)
      else
        match r.log.appendAssigningOffsets t data count with
        | .error _ => ([], c)
        | .ok log =>
          ([], { c.setNode c.leader (.up { r with log := log }) with
            handlers := c.handlers ++ [⟨(log.logEndOffset : Int) - 1, mode, deadline,
              r.log.logEndOffset, log.records.drop r.log.logEndOffset⟩] })
  | .leaderAppend => c.onLeader PartitionReplica.onLeaderAppend
  | .addWaiter i =>
    match c.handlers[i]? with
    | none => ([], c)
    | some w => ({ c with handlers := c.handlers.eraseIdx i }).onLeader (·.addWaiter w)
  | .send peer limit =>
    match c.node c.leader with
    | .down _ => ([], c)
    | .up r =>
      match r.sendPending peer limit with
      | none => ([], c)
      | some q => ([], { c with requests := c.requests ++ [(peer, q)] })
  | .deliver i =>
    match c.requests[i]? with
    | none => ([], c)
    | some (b, q) =>
      match c.node b with
      | .down _ => ([], c)
      | .up r =>
        let out := r.executeReplicate q
        (out.2.1, { c.setNode b (.up out.2.2) with
          responses := c.responses ++ [(b, out.1)] })
  | .reply i now =>
    match c.responses[i]? with
    | none => ([], c)
    | some (b, resp) => c.onLeader (·.onReplicateResponse b resp now)
  | .outOfSync peer => c.onLeader (·.markFollowerOutOfSync peer)
  | .flush b target =>
    match c.node b with
    | .down _ => ([], c)
    | .up r => ([], c.setNode b (.up { r with log := r.log.flush target }))
  | .sweep => c.onLeader PartitionReplica.completeSatisfiedWaiters
  | .expire now =>
    match c.node c.leader with
    | .down _ => ([], c)
    | .up r => ([], c.setNode c.leader (.up (r.expireWaiters now).2))
  | .processCrash b found => ([], c.crash (.processCrash b found) found)
  | .crashInProduce t data count kept found =>
    ([], c.crash (.crashInProduce t data count kept found) found)
  | .crashInDeliver i kept found => ([], c.crash (.crashInDeliver i kept found) found)
  | .machineCrash b kept found => ([], c.crash (.machineCrash b kept found) found)
  | .restart b =>
    match c.node b with
    | .up _ => ([], c)
    | .down log => ([], c.setNode b (.up (PartitionReplica.make c.set.assignment b log)))

/-- The next state, with the quorum waiters that completed noted as answered. -/
def next (c : Cluster) (e : Event) : Cluster :=
  { (c.step e).2 with acked := c.acked ++ (c.step e).1.filter (fun w => w.mode == .quorum) }

def run (c : Cluster) (es : List Event) : Cluster := es.foldl next c

/-! ## 3. Reading a state off another -/

section Nodes

variable {c : Cluster} {b b' : Nat} {n : Node}

@[simp] theorem node_setNode_self : (c.setNode b n).node b = n := by simp [setNode]

@[simp] theorem node_setNode_of_ne (h : b' ≠ b) : (c.setNode b n).node b' = c.node b' := by
  simp [setNode, h]

theorem forall_setNode {P : Nat → Node → Prop} (h : ∀ x, P x (c.node x)) (hn : P b n) :
    ∀ x, P x ((c.setNode b n).node x) := by
  intro x
  by_cases hx : x = b
  · rw [hx, node_setNode_self]
    exact hn
  · rw [node_setNode_of_ne hx]
    exact h x

end Nodes

@[simp] theorem onLeader_set (c : Cluster)
    (f : PartitionReplica → List DurabilityWaiter × PartitionReplica) :
    (c.onLeader f).2.set = c.set := by
  unfold onLeader
  split <;> rfl

/-- **What an event can do**: nothing, or one of these. The rules about a run take an event apart
    here, once. -/
inductive Moves (c : Cluster) : Event → List DurabilityWaiter × Cluster → Prop
  | stays (e : Event) : Moves c e ([], c)
  | produced {t : Int} {data : Bytes} {count : Nat} {mode : AckMode} {deadline : Int}
      {r : PartitionReplica} {log : ReplicaLog} (hr : c.node c.leader = .up r)
      (hlog : r.log.appendAssigningOffsets t data count = .ok log) :
      Moves c (.produce t data count mode deadline)
        ([], { c.setNode c.leader (.up { r with log := log }) with
          handlers := c.handlers ++ [⟨(log.logEndOffset : Int) - 1, mode, deadline,
            r.log.logEndOffset, log.records.drop r.log.logEndOffset⟩] })
  | settled (e : Event) : Moves c e (c.onLeader PartitionReplica.completeSatisfiedWaiters)
  | waits {i : Nat} {w : DurabilityWaiter} (hw : w ∈ c.handlers) :
      Moves c (.addWaiter i)
        (({ c with handlers := c.handlers.eraseIdx i }).onLeader (·.addWaiter w))
  | sent {peer limit : Nat} {r : PartitionReplica} {q : ReplicateRequest}
      (hr : c.node c.leader = .up r) (hq : r.sendPending peer limit = some q) :
      Moves c (.send peer limit) ([], { c with requests := c.requests ++ [(peer, q)] })
  | delivered {i b : Nat} {r : PartitionReplica} {q : ReplicateRequest} (hq : (b, q) ∈ c.requests)
      (hr : c.node b = .up r) :
      Moves c (.deliver i) ((r.executeReplicate q).2.1,
        { c.setNode b (.up (r.executeReplicate q).2.2) with
          responses := c.responses ++ [(b, (r.executeReplicate q).1)] })
  | replied {i b : Nat} {resp : ReplicateResponse} {now : Int} (hresp : (b, resp) ∈ c.responses) :
      Moves c (.reply i now) (c.onLeader (·.onReplicateResponse b resp now))
  | marked (peer : Nat) : Moves c (.outOfSync peer) (c.onLeader (·.markFollowerOutOfSync peer))
  | flushed {b target : Nat} {r : PartitionReplica} (hr : c.node b = .up r) :
      Moves c (.flush b target) ([], c.setNode b (.up { r with log := r.log.flush target }))
  | expired {now : Int} {r : PartitionReplica} (hr : c.node c.leader = .up r) :
      Moves c (.expire now) ([], c.setNode c.leader (.up (r.expireWaiters now).2))
  | crashed {e : Event} {b : Nat} {log : ReplicaLog} {found : ReplicaLog.Reopening}
      (h : c.crashed e = some (b, log)) : Moves c e ([], c.stop b (log.reopen found))
  | restarted {b : Nat} {log : ReplicaLog} (hlog : c.node b = .down log) :
      Moves c (.restart b) ([], c.setNode b (.up (PartitionReplica.make c.set.assignment b log)))

theorem moves_crash (c : Cluster) (e : Event) (found : ReplicaLog.Reopening) :
    Moves c e ([], c.crash e found) := by
  unfold crash
  split
  · exact .stays e
  · exact .crashed ‹_›

theorem step_moves (c : Cluster) (e : Event) : Moves c e (c.step e) := by
  cases e with
  | produce t data count mode deadline =>
    simp only [step]
    split
    · exact .stays _
    rename_i r hr
    split
    · exact .stays _
    split
    · exact .stays _
    · exact .produced hr ‹_›
  | leaderAppend => exact .settled _
  | addWaiter i =>
    simp only [step]
    split
    · exact .stays _
    · exact .waits (List.mem_of_getElem? ‹_›)
  | send peer limit =>
    simp only [step]
    split
    · exact .stays _
    split
    · exact .stays _
    · exact .sent ‹_› ‹_›
  | deliver i =>
    simp only [step]
    split
    · exact .stays _
    split
    · exact .stays _
    · exact .delivered (List.mem_of_getElem? ‹_›) ‹_›
  | reply i now =>
    simp only [step]
    split
    · exact .stays _
    · exact .replied (List.mem_of_getElem? ‹_›)
  | outOfSync peer => exact .marked peer
  | flush b target =>
    simp only [step]
    split
    · exact .stays _
    · exact .flushed ‹_›
  | sweep => exact .settled _
  | expire now =>
    simp only [step]
    split
    · exact .stays _
    · exact .expired ‹_›
  | processCrash b found => exact moves_crash c _ found
  | crashInProduce t data count kept found => exact moves_crash c _ found
  | crashInDeliver i kept found => exact moves_crash c _ found
  | machineCrash b kept found => exact moves_crash c _ found
  | restart b =>
    simp only [step]
    split
    · exact .stays _
    · exact .restarted ‹_›

/-- What a crash leaves of a broker's log. -/
inductive Remains (c : Cluster) : Event → Nat → ReplicaLog → Prop
  | idle {b : Nat} {r : PartitionReplica} {found : ReplicaLog.Reopening} (hr : c.node b = .up r) :
      Remains c (.processCrash b found) b r.log
  | producing {t : Int} {data : Bytes} {count kept : Nat} {found : ReplicaLog.Reopening}
      {r : PartitionReplica} {log : ReplicaLog} (hr : c.node c.leader = .up r)
      (hlog : r.log.appendAssigningOffsets t data count = .ok log) :
      Remains c (.crashInProduce t data count kept found) c.leader
        (log.cut (r.log.logEndOffset + kept))
  | replicating {i kept b : Nat} {found : ReplicaLog.Reopening} {r : PartitionReplica}
      {q : ReplicateRequest} {log : ReplicaLog} (hq : (b, q) ∈ c.requests) (hr : c.node b = .up r)
      (hlog : r.replicateAppend q = some (.ok log)) :
      Remains c (.crashInDeliver i kept found) b (log.cut (r.log.logEndOffset + kept))
  | lost (b kept : Nat) (found : ReplicaLog.Reopening) :
      Remains c (.machineCrash b kept found) b ((c.node b).log.machineCrash kept)

theorem remains_of_crashed {c : Cluster} {e : Event} {b : Nat} {log : ReplicaLog}
    (h : c.crashed e = some (b, log)) : Remains c e b log := by
  unfold crashed at h
  split at h
  · split at h
    · cases h
    · cases h
      exact .idle ‹_›
  · split at h
    · cases h
    split at h
    · cases h
    · cases h
      exact .producing ‹_› ‹_›
  · split at h
    · cases h
    split at h
    · cases h
    split at h
    · cases h
      exact .replicating (List.mem_of_getElem? ‹_›) ‹_› ‹_›
    · cases h
  · cases h
    exact .lost _ _ _
  · cases h

/-- Every record that a crash leaves parses on its own. -/
def Recoverable (c : Cluster) (e : Event) : Prop :=
  ∀ x ∈ c.crashed e, ∀ r ∈ x.2.records, ParsesAlone r

instance (c : Cluster) (e : Event) : Decidable (c.Recoverable e) :=
  inferInstanceAs (Decidable (∀ x ∈ c.crashed e, _))

theorem Recoverable.reopen_records {c : Cluster} {e : Event} {b : Nat} {log : ReplicaLog}
    (h : c.Recoverable e) (hc : c.crashed e = some (b, log)) (found : ReplicaLog.Reopening) :
    (log.reopen found).records = log.records :=
  log.reopen_records (h _ hc) found

/-- The replica set never changes. -/
theorem step_set (c : Cluster) (e : Event) : (c.step e).2.set = c.set := by
  have hmove := step_moves c e
  generalize c.step e = out at hmove ⊢
  cases hmove <;> first
    | rfl
    | exact onLeader_set _ _

theorem run_set : ∀ (es : List Event) (c : Cluster), (c.run es).set = c.set
  | [], _ => rfl
  | e :: es, c => (run_set es (c.next e)).trans (step_set c e)

/-! ## 4. A run -/

/-- Two brokers, the first one leads. -/
def twoBrokers : ReplicaSet := ⟨⟨0, 0, [0, 1]⟩, by decide⟩

/-- Three brokers, the first one leads. -/
def threeBrokers : ReplicaSet := ⟨⟨0, 0, [0, 1, 2]⟩, by decide⟩

/-- A quorum write that both followers have flushed and the leader has not; the first follower's
    report has arrived, the second one's is on its way. -/
def replicatedWrite : List Event :=
  [.produce 7 PartitionReplica.sampleRecord 1 .quorum 1000, .leaderAppend, .addWaiter 0,
    .send 1 1, .send 2 1, .deliver 0, .deliver 1, .reply 0 8, .reply 1 8,
    .flush 1 1, .flush 2 1, .send 1 1, .send 2 1, .deliver 2, .deliver 3, .reply 2 9]

end Cluster

end PulseLog
